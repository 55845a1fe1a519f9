import XposedJniTrace.Dobby.Relocation
import XposedJniTrace.Library.StraightLine

/-!
# Relocated code does what the instructions do

The words that `relo_relocate` emits for an instruction do at their place what the instruction does
at its own, up to `TMP_REG_0` and the return address of a call. The instructions that the relocation
gets wrong are left out by `relocatable`.
-/

namespace XposedJniTrace.Dobby

open Arm64 ByteMemory LiteralPool WordFields

section Classes

variable {inst : ℕ}

/-- The test for branches reads one field. -/
theorem inst_is_b_bl_iff : inst_is_b_bl inst = true ↔ field inst 26 5 = 5 := by
  rw [inst_is_b_bl, beq_iff_eq]
  exact and_mask_eq_iff inst 26 5 5

/-- The test for literals reads two fields. -/
theorem inst_is_ldr_literal_iff :
    inst_is_ldr_literal inst = true ↔ field inst 27 3 = 3 ∧ field inst 24 2 = 0 := by
  have hhigh : inst &&& 0x38000000 = field inst 27 3 * 2 ^ 27 := and_mask inst 27 3
  have hlow : inst &&& 0x3000000 = field inst 24 2 * 2 ^ 24 := and_mask inst 24 2
  have hlt := field_lt inst 24 2
  have hmask : inst &&& 0x3B000000 = field inst 27 3 * 2 ^ 27 + field inst 24 2 * 2 ^ 24 := by
    rw [← mul_or (by omega), ← hhigh, ← hlow, ← Nat.and_or_distrib_left]
    rfl
  rw [inst_is_ldr_literal, beq_iff_eq, hmask]
  omega

/-- The mask of addresses keeps two fields. -/
theorem and_address_mask (inst : ℕ) :
    inst &&& 0x9F000000 = field inst 31 1 * 2 ^ 31 + field inst 24 5 * 2 ^ 24 := by
  have hhigh : inst &&& 0x80000000 = field inst 31 1 * 2 ^ 31 := and_mask inst 31 1
  have hlow : inst &&& 0x1F000000 = field inst 24 5 * 2 ^ 24 := and_mask inst 24 5
  have hlt := field_lt inst 24 5
  rw [← mul_or (by omega), ← hhigh, ← hlow, ← Nat.and_or_distrib_left]
  rfl

/-- The test for `adr` reads two fields. -/
theorem inst_is_adr_iff : inst_is_adr inst = true ↔ field inst 24 5 = 16 ∧ field inst 31 1 = 0 := by
  have hfixed : inst &&& 0x1F000000 = field inst 24 5 * 2 ^ 24 := and_mask inst 24 5
  have hlt := field_lt inst 24 5
  rw [inst_is_adr, Bool.and_eq_true, beq_iff_eq, beq_iff_eq, and_address_mask, hfixed]
  omega

/-- The test for `adrp` reads two fields. -/
theorem inst_is_adrp_iff : inst_is_adrp inst = true ↔ field inst 24 5 = 16 ∧
    field inst 31 1 = 1 := by
  have hfixed : inst &&& 0x1F000000 = field inst 24 5 * 2 ^ 24 := and_mask inst 24 5
  have hlt := field_lt inst 24 5
  rw [inst_is_adrp, Bool.and_eq_true, beq_iff_eq, beq_iff_eq, and_address_mask, hfixed]
  omega

/-- The test for conditional branches reads one field. -/
theorem inst_is_b_cond_iff : inst_is_b_cond inst = true ↔ field inst 25 7 = 42 := by
  rw [inst_is_b_cond, beq_iff_eq]
  exact and_mask_eq_iff inst 25 7 42

/-- The test for compare-and-branch reads one field. -/
theorem inst_is_compare_b_iff : inst_is_compare_b inst = true ↔ field inst 25 6 = 26 := by
  rw [inst_is_compare_b, beq_iff_eq]
  exact and_mask_eq_iff inst 25 6 26

/-- The test for test-and-branch reads one field. -/
theorem inst_is_test_b_iff : inst_is_test_b inst = true ↔ field inst 25 6 = 27 := by
  rw [inst_is_test_b, beq_iff_eq]
  exact and_mask_eq_iff inst 25 6 27

/-- A branch that links. -/
theorem and_bl_mask (hb : inst_is_b_bl inst = true) :
    inst &&& 0xFC000000 = 0x94000000 ↔ field inst 31 1 = 1 := by
  have hclass := inst_is_b_bl_iff.mp hb
  have h := and_mask_eq_iff inst 26 6 37
  have hfield : field inst 26 6 = 37 ↔ field inst 31 1 = 1 := by
    unfold field at *
    omega
  exact h.trans hfield

end Classes

section Offsets

/-- The sign of a number of `M` bits is extended. -/
theorem signExtend_eq {x M : ℕ} (hpos : 0 < M) (hM : M < 64) (hx : x < 2 ^ M) :
    SignExtend x M = signed M x := by
  obtain ⟨k, rfl⟩ : ∃ k, M = k + 1 := ⟨M - 1, by omega⟩
  have hhalf : 2 ^ (k + 1) = 2 * 2 ^ k := by ring
  have hle : 2 ^ (k + 1) ≤ 2 ^ 63 := Nat.pow_le_pow_right (by decide) (by omega)
  have hsign : bit x k = x / 2 ^ k := by
    rw [bit_eq, field]
    apply Nat.mod_eq_of_lt
    apply Nat.div_lt_of_lt_mul
    omega
  rw [SignExtend, Nat.add_sub_cancel, hsign]
  by_cases hlow : x < 2 ^ k
  · have hzero : x / 2 ^ k = 0 := Nat.div_eq_of_lt hlow
    have hsmall : x < 2 ^ (64 - 1) := by omega
    have hword : x ||| ((2 ^ 64 - 0) % 2 ^ 64) >>> (k + 1) <<< (k + 1) = x := by simp
    rw [hzero, hword, signed, if_pos hsmall, signed, Nat.add_sub_cancel, if_pos hlow]
  · have hone : x / 2 ^ k = 1 := Nat.div_eq_of_lt_le (by omega) (by omega)
    have hsplit : 2 ^ 64 = 2 ^ (64 - (k + 1)) * 2 ^ (k + 1) := by
      rw [← Nat.pow_add]
      congr 1
      omega
    have hmask : ((2 ^ 64 - 1) % 2 ^ 64) >>> (k + 1) <<< (k + 1) =
        (2 ^ (64 - (k + 1)) - 1) * 2 ^ (k + 1) := by
      rw [Nat.mod_eq_of_lt (by decide), Nat.shiftLeft_eq, Nat.shiftRight_eq_div_pow]
      congr 1
      apply Nat.div_eq_of_lt_le
      · rw [Nat.sub_mul, one_mul, ← hsplit]
        omega
      · rw [Nat.sub_add_cancel (Nat.one_le_two_pow), ← hsplit]
        decide
    have hword : x ||| ((2 ^ 64 - 1) % 2 ^ 64) >>> (k + 1) <<< (k + 1) =
        2 ^ 64 - 2 ^ (k + 1) + x := by
      rw [hmask, Nat.or_comm, mul_or hx, Nat.sub_mul, one_mul, ← hsplit]
    have hnegative : ¬ 2 ^ 64 - 2 ^ (k + 1) + x < 2 ^ (64 - 1) := by omega
    rw [hone, hword, signed, if_neg hnegative, signed, Nat.add_sub_cancel, if_neg hlow]
    rw [Nat.cast_add, Nat.cast_sub (by omega)]
    push_cast
    ring

variable {inst : ℕ}

/-- A number of instructions as an offset. -/
theorem signExtend_four_mul {x len : ℕ} (hpos : 0 < len) (hlen : len < 62) (hx : x < 2 ^ len) :
    SignExtend (x <<< 2) (2 + len) = 4 * signed len x := by
  have hlt : x * 4 < 2 ^ (2 + len) := by
    rw [Nat.pow_add]
    omega
  have hshift : x <<< 2 = x * 4 := Nat.shiftLeft_eq x 2
  rw [hshift, signExtend_eq (by omega) (by omega) hlt, signed_four_mul hpos]

/-- The offset of a branch is the one that the instruction has. -/
theorem decode_imm26_offset_eq : decode_imm26_offset inst = branchOffset inst 0 26 := by
  rw [decode_imm26_offset, bits_eq]
  exact signExtend_four_mul (by decide) (by decide) (field_lt inst 0 26)

/-- The offset of a literal is the one that the instruction has. -/
theorem decode_imm19_offset_eq : decode_imm19_offset inst = branchOffset inst 5 19 := by
  rw [decode_imm19_offset, bits_eq]
  exact signExtend_four_mul (by decide) (by decide) (field_lt inst 5 19)

/-- The offset of a test-and-branch is the one that the instruction has. -/
theorem decode_imm14_offset_eq : decode_imm14_offset inst = branchOffset inst 5 14 := by
  rw [decode_imm14_offset, bits_eq]
  exact signExtend_four_mul (by decide) (by decide) (field_lt inst 5 14)

/-- The offset of `adr` is the one that the instruction has. -/
theorem decode_immhi_immlo_offset_eq : decode_immhi_immlo_offset inst = addressOffset inst := by
  have hhigh := field_lt inst 5 19
  have hlow := field_lt inst 29 2
  have hshift : field inst 5 19 <<< 2 = field inst 5 19 * 4 := Nat.shiftLeft_eq _ 2
  rw [decode_immhi_immlo_offset, addressOffset, hshift, Nat.add_comm]
  exact signExtend_eq (by decide) (by decide) (by omega)

/-- The offset of `adrp` is the one that the instruction has. -/
theorem decode_immhi_immlo_zero12_offset_eq :
    decode_immhi_immlo_zero12_offset inst = 4096 * addressOffset inst := by
  rw [decode_immhi_immlo_zero12_offset, decode_immhi_immlo_offset_eq]
  ring

/-- The page of an address that is whole pages away from another. -/
theorem arm64_trunc_page_eq (pc : ℕ) (pages : ℤ) :
    arm64_trunc_page (wrap (pc + 4096 * pages)) = wrap ((pc / 4096 * 4096 : ℕ) + 4096 * pages) := by
  have hmask := and_mask (wrap (pc + 4096 * pages)) 12 52
  have hlt := wrap_lt (pc + 4096 * pages)
  have hpage : arm64_trunc_page (wrap (pc + 4096 * pages)) =
      wrap (pc + 4096 * pages) / 4096 * 4096 := by
    have hfield : field (wrap (pc + 4096 * pages)) 12 52 = wrap (pc + 4096 * pages) / 4096 := by
      rw [field]
      omega
    rw [hfield] at hmask
    exact hmask
  rw [hpage]
  unfold wrap at *
  omega

end Offsets

section Branches

variable {inst : ℕ}

/-- Three instructions ahead. -/
theorem branchOffset_three {w lo len : ℕ} (hlen : 3 < 2 ^ (len - 1)) (h : field w lo len = 3) :
    branchOffset w lo len = 12 := by
  rw [branchOffset, h, signed, if_pos hlen]
  rfl

/-- A number with its lowest bit turned round has no more bits. -/
theorem xor_one_lt {n len : ℕ} (hlen : 0 < len) (h : n < 2 ^ len) : n ^^^ 1 < 2 ^ len :=
  Nat.xor_lt_two_pow h (Nat.one_lt_two_pow hlen.ne')

/-- The branch over is taken under the opposite condition. -/
theorem decode_cond_branch_instr (hinst : inst < 2 ^ 32) (hclass : field inst 25 7 = 42)
    (hfixed : field inst 24 1 = 0) :
    decode (cond_branch_instr inst) = .bCond (field inst 0 4 ^^^ 1) 12 := by
  have hcond : field inst 0 4 ^^^ 1 < 2 ^ 4 := xor_one_lt (by decide) (field_lt inst 0 4)
  have heq : cond_branch_instr inst = replace (replace inst 0 4 (field inst 0 4 ^^^ 1)) 5 19 3 := by
    rw [cond_branch_instr, bits_eq]
    rfl
  have hfirst : replace inst 0 4 (field inst 0 4 ^^^ 1) < 2 ^ 32 :=
    replace_lt hinst hcond (by decide)
  have hsame : ∀ lo len, 24 ≤ lo → field (cond_branch_instr inst) lo len = field inst lo len := by
    intro lo len hlo
    rw [heq, field_replace_of_disjoint hfirst (by decide) (by decide) (.inr hlo),
      field_replace_of_disjoint hinst hcond (by decide) (.inr (by omega))]
  have hcond' : field (cond_branch_instr inst) 0 4 = field inst 0 4 ^^^ 1 := by
    rw [heq, field_replace_of_disjoint hfirst (by decide) (by decide) (.inl (by decide)),
      field_replace hinst hcond (by decide)]
  have hoffset : field (cond_branch_instr inst) 5 19 = 3 := by
    rw [heq, field_replace hfirst (by decide) (by decide)]
  rw [decode_bCond ((hsame 25 7 (by decide)).trans hclass)
    ((hsame 24 1 (by decide)).trans hfixed), hcond', branchOffset_three (by decide) hoffset]

/-- A word whose bit 24 is flipped and that has an offset put into it, beside the two. -/
theorem field_flipped {len lo' len' : ℕ} (hinst : inst < 2 ^ 32) (hlen : 5 + len ≤ 24)
    (hthree : 3 < 2 ^ len)
    (hoffset : lo' + len' ≤ 5 ∨ 5 + len ≤ lo') (hbit : lo' + len' ≤ 24 ∨ 25 ≤ lo') :
    field (replace (replace inst 24 1 (field inst 24 1 ^^^ 1)) 5 len 3) lo' len' =
      field inst lo' len' := by
  have hflip : field inst 24 1 ^^^ 1 < 2 ^ 1 := xor_one_lt (by decide) (field_lt inst 24 1)
  rw [field_replace_of_disjoint (replace_lt hinst hflip (by decide)) hthree (by omega) hoffset,
    field_replace_of_disjoint hinst hflip (by decide) hbit]

/-- The sense of a branch that is turned round. -/
theorem field_flipped_bit {len : ℕ} (hinst : inst < 2 ^ 32) (hlen : 5 + len ≤ 24)
    (hthree : 3 < 2 ^ len) :
    field (replace (replace inst 24 1 (field inst 24 1 ^^^ 1)) 5 len 3) 24 1 =
      field inst 24 1 ^^^ 1 := by
  have hflip : field inst 24 1 ^^^ 1 < 2 ^ 1 := xor_one_lt (by decide) (field_lt inst 24 1)
  rw [field_replace_of_disjoint (replace_lt hinst hflip (by decide)) hthree (by omega) (.inr hlen),
    field_replace hinst hflip (by decide)]

/-- The offset of a branch that is turned round. -/
theorem field_flipped_offset {len : ℕ} (hinst : inst < 2 ^ 32) (hlen : 5 + len ≤ 24)
    (hthree : 3 < 2 ^ len) :
    field (replace (replace inst 24 1 (field inst 24 1 ^^^ 1)) 5 len 3) 5 len = 3 := by
  have hflip : field inst 24 1 ^^^ 1 < 2 ^ 1 := xor_one_lt (by decide) (field_lt inst 24 1)
  exact field_replace (replace_lt hinst hflip (by decide)) hthree (by omega)

/-- Whether a bit of one is set, when it is flipped. -/
theorem decide_flipped {n : ℕ} (h : n < 2) : decide (n ^^^ 1 = 1) = !decide (n = 1) := by
  interval_cases n <;> rfl

/-- A compare-and-branch that is turned round has the other sense and goes over three instructions.
-/
theorem decode_compare_branch_instr (hinst : inst < 2 ^ 32) (hclass : field inst 25 6 = 26) :
    decode (compare_branch_instr inst) =
      .cb (field inst 31 1 = 1) (!decide (field inst 24 1 = 1)) (field inst 0 5) 12 := by
  have heq : compare_branch_instr inst =
      replace (replace inst 24 1 (field inst 24 1 ^^^ 1)) 5 19 3 := by
    rw [compare_branch_instr, bit_eq]
    rfl
  have hclass' : field (compare_branch_instr inst) 25 6 = 26 := by
    rw [heq, field_flipped hinst (by decide) (by decide) (.inr (by decide))
      (.inr (by decide)), hclass]
  have hwide : field (compare_branch_instr inst) 31 1 = field inst 31 1 := by
    rw [heq, field_flipped hinst (by decide) (by decide) (.inr (by decide)) (.inr (by decide))]
  have hregister : field (compare_branch_instr inst) 0 5 = field inst 0 5 := by
    rw [heq, field_flipped hinst (by decide) (by decide) (.inl (by decide)) (.inl (by decide))]
  have hbit : field (compare_branch_instr inst) 24 1 = field inst 24 1 ^^^ 1 := by
    rw [heq, field_flipped_bit hinst (by decide) (by decide)]
  have hoffset : field (compare_branch_instr inst) 5 19 = 3 := by
    rw [heq, field_flipped_offset hinst (by decide) (by decide)]
  rw [decode_cb hclass', hwide, hregister, hbit, decide_flipped (field_lt inst 24 1),
    branchOffset_three (by decide) hoffset]

/-- A test-and-branch that is turned round has the other sense and goes over three instructions. -/
theorem decode_test_branch_instr (hinst : inst < 2 ^ 32) (hclass : field inst 25 6 = 27) :
    decode (test_branch_instr inst) =
      .tb (!decide (field inst 24 1 = 1)) (field inst 31 1 * 32 + field inst 19 5)
        (field inst 0 5) 12 := by
  have heq : test_branch_instr inst =
      replace (replace inst 24 1 (field inst 24 1 ^^^ 1)) 5 14 3 := by
    rw [test_branch_instr, bit_eq]
    rfl
  have hclass' : field (test_branch_instr inst) 25 6 = 27 := by
    rw [heq, field_flipped hinst (by decide) (by decide) (.inr (by decide))
      (.inr (by decide)), hclass]
  have hhigh : field (test_branch_instr inst) 31 1 = field inst 31 1 := by
    rw [heq, field_flipped hinst (by decide) (by decide) (.inr (by decide)) (.inr (by decide))]
  have hlow : field (test_branch_instr inst) 19 5 = field inst 19 5 := by
    rw [heq, field_flipped hinst (by decide) (by decide) (.inr (by decide)) (.inl (by decide))]
  have hregister : field (test_branch_instr inst) 0 5 = field inst 0 5 := by
    rw [heq, field_flipped hinst (by decide) (by decide) (.inl (by decide)) (.inl (by decide))]
  have hbit : field (test_branch_instr inst) 24 1 = field inst 24 1 ^^^ 1 := by
    rw [heq, field_flipped_bit hinst (by decide) (by decide)]
  have hoffset : field (test_branch_instr inst) 5 14 = 3 := by
    rw [heq, field_flipped_offset hinst (by decide) (by decide)]
  rw [decode_tb hclass', hhigh, hlow, hregister, hbit, decide_flipped (field_lt inst 24 1),
    branchOffset_three (by decide) hoffset]

end Branches

section Pieces

variable {σ : Type*} {others : ℕ → Core σ → Core σ × Flow} {c : Core σ} {a dst : ℕ}

/-- The address behind an instruction. -/
theorem wrap_add_four (h : a + 4 < 2 ^ 64) : wrap (a + 4) = a + 4 := by
  exact_mod_cast wrap_of_lt h

/-- A label is loaded and branched to. -/
theorem reaches_load_br (h : SlotsAt c.mem a [.load TMP_REG_0 dst, .word (br TMP_REG_0)])
    (hend : a + 4 < 2 ^ 64) :
    Reaches others (a, c) (dst, c.set TMP_REG_0 dst) := by
  obtain ⟨hload, hword, -⟩ := h
  have hfirst : step others (a, c) = (a + 4, c.set TMP_REG_0 dst) := by
    rw [step_load hload, wrap_add_four hend]
  have hsecond : step others (a + 4, c.set TMP_REG_0 dst) = (dst, c.set TMP_REG_0 dst) := by
    rw [step_word (by rwa [Core.mem_set]), decode_br_word (by decide), exec, follow,
      Core.get_set (by decide)]
  exact .head hfirst (.head hsecond .refl)

/-- A label is loaded and called. -/
theorem reaches_load_blr (h : SlotsAt c.mem a [.load TMP_REG_0 dst, .word (blr TMP_REG_0)])
    (hend : a + 8 < 2 ^ 64) :
    Reaches others (a, c) (dst, (c.set TMP_REG_0 dst).set 30 (a + 8)) := by
  obtain ⟨hload, hword, -⟩ := h
  have hnext : wrap ((a + 4 : ℕ) + 4) = a + 8 := wrap_add_four hend
  have hfirst : step others (a, c) = (a + 4, c.set TMP_REG_0 dst) := by
    rw [step_load hload, wrap_add_four (by omega)]
  have hsecond : step others (a + 4, c.set TMP_REG_0 dst) =
      (dst, (c.set TMP_REG_0 dst).set 30 (a + 8)) := by
    rw [step_word (by rwa [Core.mem_set]), decode_blr_word (by decide), exec, hnext, follow,
      Core.get_set (by decide)]
  exact .head hfirst (.head hsecond .refl)

/-- A branch over a branch is the branch under the opposite condition. -/
theorem reaches_branchOver {w : ℕ} {taken : Bool} (hend : a + 12 < 2 ^ 64)
    (hexec : exec others a c (decode w) = (c, branchIf (!taken) (wrap (a + 12))))
    (h : SlotsAt c.mem a [.word w, .load TMP_REG_0 dst, .word (br TMP_REG_0)]) :
    Reaches others (a, c) (if taken then (dst, c.set TMP_REG_0 dst) else (a + 12, c)) := by
  obtain ⟨hword, hrest⟩ := h
  have hfirst : step others (a, c) = _ := step_word hword
  rw [hexec] at hfirst
  cases taken with
  | false =>
    have htarget : wrap (a + 12) = a + 12 := by exact_mod_cast wrap_of_lt hend
    rw [htarget] at hfirst
    exact .head hfirst .refl
  | true =>
    rw [Bool.not_true, branchIf, if_neg Bool.false_ne_true, follow,
      wrap_add_four (by omega)] at hfirst
    exact .head hfirst (reaches_load_br hrest (by omega))

/-- An address is moved to the register and what is there is loaded. -/
theorem reaches_literal {rt : ℕ} (hrt : rt < 32) (hdst : dst < 2 ^ 64) (hend : a + 20 < 2 ^ 64)
    (h : SlotsAt c.mem a ((Mov TMP_REG_0 dst ++ [ldr rt TMP_REG_0 0]).map .word)) :
    Reaches others (a, c) (a + 20, (c.set TMP_REG_0 dst).set rt (number c.mem dst 8)) := by
  rw [List.map_append, slotsAt_append] at h
  obtain ⟨hmov, hword, -⟩ := h
  have hnext : wrap ((a + 16 : ℕ) + 4) = a + 20 := wrap_add_four (by omega)
  have haddress : wrap ((dst : ℤ) + (0 : ℕ)) = dst := by
    rw [Nat.cast_zero, add_zero]
    exact wrap_of_lt hdst
  have hload : step others (a + 16, c.set TMP_REG_0 dst) =
      (a + 20, (c.set TMP_REG_0 dst).set rt (number c.mem dst 8)) := by
    rw [step_word (by rwa [Core.mem_set]), decode_ldr_word hrt (by decide), exec, hnext, follow,
      Core.base_set (by decide), haddress, Core.mem_set]
  exact (reaches_Mov (by decide) hdst hmov (by omega)).trans (.head hload .refl)

end Pieces

/-- The instructions that the relocated code stands for: a literal has 64 bits and goes to a general
register, and a condition does not always hold. -/
def relocatable : Instr → Bool
  | .ldrLiteral kind _ _ => kind = .doubleword
  | .bCond cond _ => cond < 14
  | .other w => !inst_is_ldr_literal w && !inst_is_b_cond w
  | _ => true

section Decode

variable {inst : ℕ}

/-- A branch is decoded with the offset that the relocation reads. -/
theorem decode_b_bl (h : inst_is_b_bl inst = true) :
    decode inst = if field inst 31 1 = 0 then .b (decode_imm26_offset inst)
      else .bl (decode_imm26_offset inst) := by
  rw [decode_imm26_offset_eq]
  exact decode_branch (inst_is_b_bl_iff.mp h)

/-- A literal that is relocated is one of 64 bits into a general register. -/
theorem decode_ldr_literal (hliteral : inst_is_ldr_literal inst = true)
    (hrelocatable : relocatable (decode inst) = true) :
    decode inst = .ldrLiteral .doubleword (decode_rt inst) (decode_imm19_offset inst) ∧
      bits inst 30 31 = 1 := by
  obtain ⟨hclass, hfixed⟩ := inst_is_ldr_literal_iff.mp hliteral
  have hopc : bits inst 30 31 = field inst 30 2 := bits_eq inst 30 31
  have hregister : decode_rt inst = field inst 0 5 := bits_eq inst 0 4
  have hbranch : field inst 26 5 ≠ 0b00101 := by
    unfold field at *
    omega
  rw [hopc, hregister, decode_imm19_offset_eq]
  cases hkind : literal (field inst 30 2) (field inst 26 1) with
  | none =>
    have hother : decode inst = .other inst := by
      rw [decode, if_neg hbranch, if_pos ⟨hclass, hfixed⟩, hkind]
    rw [hother, relocatable, hliteral] at hrelocatable
    exact absurd hrelocatable (by simp)
  | some kind =>
    have hdecode := decode_literal hclass hfixed hkind
    rw [hdecode, relocatable, decide_eq_true_eq] at hrelocatable
    subst hrelocatable
    refine ⟨hdecode, ?_⟩
    unfold literal at hkind
    split_ifs at hkind <;> first | assumption | simp at hkind

/-- `adr` is decoded with the register and the offset that the relocation reads. -/
theorem decode_adr (h : inst_is_adr inst = true) :
    decode inst = .adr (decode_rd inst) (decode_immhi_immlo_offset inst) := by
  obtain ⟨hclass, hop⟩ := inst_is_adr_iff.mp h
  rw [decode_address hclass, if_pos hop, decode_immhi_immlo_offset_eq, decode_rd, bits_eq]

/-- `adrp` is decoded with the register and the offset that the relocation reads. -/
theorem decode_adrp (h : inst_is_adrp inst = true) :
    decode inst = .adrp (decode_rd inst) (decode_immhi_immlo_zero12_offset inst) := by
  obtain ⟨hclass, hop⟩ := inst_is_adrp_iff.mp h
  have hone : field inst 31 1 ≠ 0 := by omega
  rw [decode_address hclass, if_neg hone, decode_immhi_immlo_zero12_offset_eq, decode_rd, bits_eq]

/-- A condition that is relocated does not always hold. -/
theorem decode_b_cond (h : inst_is_b_cond inst = true)
    (hrelocatable : relocatable (decode inst) = true) :
    decode inst = .bCond (field inst 0 4) (decode_imm19_offset inst) ∧ field inst 0 4 < 14 ∧
      field inst 24 1 = 0 := by
  have hclass := inst_is_b_cond_iff.mp h
  rw [decode_imm19_offset_eq]
  by_cases hfixed : field inst 24 1 = 0
  · have hdecode := decode_bCond hclass hfixed
    rw [hdecode, relocatable, decide_eq_true_eq] at hrelocatable
    exact ⟨hdecode, hrelocatable, hfixed⟩
  · have hop : field inst 24 8 = 0x55 := by
      unfold field at *
      omega
    have hother : decode inst = .other inst := by
      have hmov : field inst 23 9 ≠ 0b110100101 ∧ field inst 23 9 ≠ 0b111100101 := by
        unfold field at *
        omega
      have hmem : field inst 22 10 ≠ 0b1001000100 ∧ field inst 22 10 ≠ 0b1111100101 := by
        unfold field at *
        omega
      have hjump : field inst 10 22 ≠ 0x3587C0 ∧ field inst 10 22 ≠ 0x358FC0 := by
        unfold field at *
        omega
      rw [decode_free hop (by decide), decodeFree, if_neg hmov.1, if_neg hmov.2, if_neg hmem.1,
        if_neg hmem.2, if_neg (fun h => hjump.1 h.1), if_neg (fun h => hjump.2 h.1)]
    rw [hother, relocatable, h] at hrelocatable
    exact absurd hrelocatable (by simp)

/-- A compare-and-branch is decoded with the offset that the relocation reads. -/
theorem decode_compare_b (h : inst_is_compare_b inst = true) :
    decode inst = .cb (field inst 31 1 = 1) (field inst 24 1 = 1) (field inst 0 5)
      (decode_imm19_offset inst) := by
  rw [decode_imm19_offset_eq]
  exact decode_cb (inst_is_compare_b_iff.mp h)

/-- A test-and-branch is decoded with the offset that the relocation reads. -/
theorem decode_test_b (h : inst_is_test_b inst = true) :
    decode inst = .tb (field inst 24 1 = 1) (field inst 31 1 * 32 + field inst 19 5)
      (field inst 0 5)
      (decode_imm14_offset inst) := by
  rw [decode_imm14_offset_eq]
  exact decode_tb (inst_is_test_b_iff.mp h)

/-- What is emitted as it is does not depend on its address. -/
theorem decode_rest (hb : ¬ inst_is_b_bl inst = true) (hliteral : ¬ inst_is_ldr_literal inst = true)
    (hadr : ¬ inst_is_adr inst = true) (hadrp : ¬ inst_is_adrp inst = true)
    (hcond : ¬ inst_is_b_cond inst = true) (hcompare : ¬ inst_is_compare_b inst = true)
    (htest : ¬ inst_is_test_b inst = true) : decode inst = decodeFree inst := by
  rw [inst_is_b_bl_iff] at hb
  rw [inst_is_ldr_literal_iff] at hliteral
  rw [inst_is_adr_iff] at hadr
  rw [inst_is_adrp_iff] at hadrp
  rw [inst_is_b_cond_iff] at hcond
  rw [inst_is_compare_b_iff] at hcompare
  rw [inst_is_test_b_iff] at htest
  have hbit := field_lt inst 31 1
  have haddress : field inst 24 5 ≠ 16 := by
    intro h
    by_cases hop : field inst 31 1 = 0
    · exact hadr ⟨h, hop⟩
    · exact hadrp ⟨h, by omega⟩
  rw [decode, if_neg hb, if_neg hliteral, if_neg haddress, if_neg (fun h => hcond h.1),
    if_neg hcompare, if_neg htest]

/-- An instruction that needs no place does the same everywhere. -/
theorem exec_decodeFree {σ : Type*} {others : ℕ → Core σ → Core σ × Flow} {c : Core σ}
    (pc pc' : ℕ) :
    exec others pc c (decodeFree inst) = exec others pc' c (decodeFree inst) := by
  unfold decodeFree
  split_ifs <;> rfl

end Decode

section Chunk

variable {σ : Type*} (others : ℕ → Core σ → Core σ × Flow)

/-- A state with another number in `TMP_REG_0`. -/
def withTmp (value : ℕ) (s : ℕ × Core σ) : ℕ × Core σ := (s.1, s.2.set TMP_REG_0 value)

/-- From a state the outcome of an instruction is reached up to `TMP_REG_0`, and exactly where the
instruction leads to the next one. -/
def Lands (s : ℕ × Core σ) (next : ℕ) (outcome : Core σ × Flow) : Prop :=
  ∃ value, Reaches others s (withTmp value (follow next outcome)) ∧
    (outcome.2 = .next → withTmp value (follow next outcome) = follow next outcome)

variable {others} {s : ℕ × Core σ} {c : Core σ} {a pc next target inst : ℕ}

/-- A state has the value of `TMP_REG_0` that it has. -/
theorem withTmp_get (s : ℕ × Core σ) : withTmp (s.2.get TMP_REG_0) s = s := by
  rw [withTmp, Core.set_get]

/-- What leads to where an instruction leads lands there. -/
theorem Lands.of_reaches {outcome : Core σ × Flow} (h : Reaches others s (follow next outcome)) :
    Lands others s next outcome :=
  ⟨(follow next outcome).2.get TMP_REG_0, by rwa [withTmp_get], fun _ => withTmp_get _⟩

/-- A branch over `TMP_REG_0` lands at its target. -/
theorem Lands.jump (h : Reaches others s (target, c.set TMP_REG_0 target)) :
    Lands others s next (c, .jump target) := ⟨target, h, nofun⟩

/-- A call over `TMP_REG_0` lands at its target. -/
theorem Lands.call (h : Reaches others s (target, (c.set TMP_REG_0 target).set 30 next)) :
    Lands others s next (c, .call target) := by
  rw [Core.set_comm (by decide)] at h
  exact ⟨target, h, nofun⟩

/-- A branch that is taken or not lands where the one it stands for leads. -/
theorem Lands.branch {taken : Bool}
    (h : Reaches others s (if taken then (target, c.set TMP_REG_0 target) else (next, c))) :
    Lands others s next (c, branchIf taken target) := by
  cases taken with
  | false => exact .of_reaches h
  | true => exact .jump h

/-- Whether bits differ is decided by flipping one of them. -/
theorem beq_not (p q : Bool) : (p == !q) = !(p == q) := by
  cases p <;> cases q <;> rfl

/-- Inequality with a negation. -/
theorem bne_not (p q : Bool) : (p != !q) = !(p != q) := by
  cases p <;> cases q <;> rfl

/-- The slots of an instruction do what the instruction does at its own address, but for a
literal. -/
theorem lands_chunk (hinst : inst < 2 ^ 32) (hrelocatable : relocatable (decode inst) = true)
    (hliteral : ¬ inst_is_ldr_literal inst = true) (hend : a + 4 * (chunk pc inst).length < 2 ^ 64)
    (h : SlotsAt c.mem a (chunk pc inst)) :
    Lands others (a, c) (a + 4 * (chunk pc inst).length) (exec others pc c (decode inst)) := by
  by_cases hb : inst_is_b_bl inst = true
  · have hdecode := decode_b_bl hb
    by_cases hlink : field inst 31 1 = 1
    · have hzero : field inst 31 1 ≠ 0 := by omega
      simp only [chunk, if_pos hb, if_pos ((and_bl_mask hb).mpr hlink)] at hend h ⊢
      rw [hdecode, if_neg hzero, exec]
      exact .call (reaches_load_blr h hend)
    · have hzero : field inst 31 1 = 0 := by
        have hlt := field_lt inst 31 1
        omega
      simp only [chunk, if_pos hb, if_neg (fun hl => hlink ((and_bl_mask hb).mp hl))] at hend h ⊢
      rw [hdecode, if_pos hzero, exec]
      exact .jump (reaches_load_br h (by simp only [List.length_cons] at hend; omega))
  by_cases hadr : inst_is_adr inst = true
  · simp only [chunk, if_neg hb, if_neg hliteral, if_pos hadr] at hend h ⊢
    have hrd : decode_rd inst < 32 := by
      rw [decode_rd, bits_eq]
      exact field_lt inst 0 5
    rw [decode_adr hadr, exec]
    exact .of_reaches (reaches_Mov hrd (wrap_lt _) h hend)
  by_cases hadrp : inst_is_adrp inst = true
  · simp only [chunk, if_neg hb, if_neg hliteral, if_neg hadr, if_pos hadrp] at hend h ⊢
    have hrd : decode_rd inst < 32 := by
      rw [decode_rd, bits_eq]
      exact field_lt inst 0 5
    rw [decode_immhi_immlo_zero12_offset_eq, arm64_trunc_page_eq] at hend h ⊢
    rw [decode_adrp hadrp, exec, decode_immhi_immlo_zero12_offset_eq]
    exact .of_reaches (reaches_Mov hrd (wrap_lt _) h hend)
  by_cases hcond : inst_is_b_cond inst = true
  · simp only [chunk, if_neg hb, if_neg hliteral, if_neg hadr, if_neg hadrp,
      if_pos hcond] at hend h ⊢
    obtain ⟨hdecode, hlt, hfixed⟩ := decode_b_cond hcond hrelocatable
    have hbranch := decode_cond_branch_instr hinst (inst_is_b_cond_iff.mp hcond) hfixed
    rw [hdecode, exec]
    apply Lands.branch
    apply reaches_branchOver hend _ h
    rw [hbranch, exec, Flags.holds_xor _ hlt]
  by_cases hcompare : inst_is_compare_b inst = true
  · simp only [chunk, if_neg hb, if_neg hliteral, if_neg hadr, if_neg hadrp, if_neg hcond,
      if_pos hcompare] at hend h ⊢
    have hbranch := decode_compare_branch_instr hinst (inst_is_compare_b_iff.mp hcompare)
    rw [decode_compare_b hcompare, exec]
    apply Lands.branch
    apply reaches_branchOver hend _ h
    rw [hbranch, exec, bne_not]
  by_cases htest : inst_is_test_b inst = true
  · simp only [chunk, if_neg hb, if_neg hliteral, if_neg hadr, if_neg hadrp, if_neg hcond,
      if_neg hcompare, if_pos htest] at hend h ⊢
    have hbranch := decode_test_branch_instr hinst (inst_is_test_b_iff.mp htest)
    rw [decode_test_b htest, exec]
    apply Lands.branch
    apply reaches_branchOver hend _ h
    rw [hbranch, exec, beq_not]
  · simp only [chunk, if_neg hb, if_neg hliteral, if_neg hadr, if_neg hadrp, if_neg hcond,
      if_neg hcompare, if_neg htest] at hend h ⊢
    have hdecode := decode_rest hb hliteral hadr hadrp hcond hcompare htest
    have hstep : step others (a, c) = follow (a + 4) (exec others pc c (decode inst)) := by
      rw [step_word h.1, wrap_add_four hend, hdecode, exec_decodeFree a pc]
    exact .of_reaches (.head hstep .refl)

/-- A literal is loaded as by the instruction, up to `TMP_REG_0`. -/
theorem reaches_chunk_literal (hrelocatable : relocatable (decode inst) = true)
    (hliteral : inst_is_ldr_literal inst = true) (hend : a + 4 * (chunk pc inst).length < 2 ^ 64)
    (h : SlotsAt c.mem a (chunk pc inst)) :
    ∃ value c', exec others pc c (decode inst) = (c', .next) ∧
      Reaches others (a, c) (withTmp value (a + 4 * (chunk pc inst).length, c')) := by
  have hb : ¬ inst_is_b_bl inst = true := by
    rw [inst_is_b_bl_iff]
    have hclass := inst_is_ldr_literal_iff.mp hliteral
    unfold field at *
    omega
  obtain ⟨hdecode, hopc⟩ := decode_ldr_literal hliteral hrelocatable
  have hrt : decode_rt inst < 32 := by
    rw [decode_rt, bits_eq]
    exact field_lt inst 0 5
  simp only [chunk, if_neg hb, if_pos hliteral] at hend h ⊢
  have hreach : Reaches others (a, c) _ := reaches_literal hrt (wrap_lt _) hend h
  have hexec : exec others pc c (decode inst) =
      (c.set (decode_rt inst) (number c.mem (wrap (pc + decode_imm19_offset inst)) 8), .next) := by
    rw [hdecode]
    rfl
  by_cases htmp : decode_rt inst = TMP_REG_0
  · rw [htmp, Core.set_set] at hreach
    rw [htmp] at hexec
    refine ⟨number c.mem (wrap (pc + decode_imm19_offset inst)) 8, _, hexec, ?_⟩
    rw [withTmp, Core.set_set]
    exact hreach
  · rw [Core.set_comm (fun h => htmp h.symm)] at hreach
    exact ⟨_, _, hexec, hreach⟩

end Chunk

end XposedJniTrace.Dobby
