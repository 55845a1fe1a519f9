import XposedJniTrace.Dobby.RelocationSound

/-!
# Trampolines

`trampoline_arm64.cc`: the code that is written over the first instructions of a function. It leads
to the target and changes nothing but `TMP_REG_0`; where the pages of the target and of the
trampoline are `2 ^ 20` apart, which `ADRP` does not reach, it leads elsewhere.
-/

namespace XposedJniTrace.Dobby

open Arm64 ByteMemory LiteralPool WordFields

/-- `ALIGN_FLOOR` to a power of two. -/
def ALIGN_FLOOR (address range : ℕ) : ℕ := address / range * range

/-- `ALIGN_CEIL` to a power of two. -/
def ALIGN_CEIL (address range : ℕ) : ℕ := (address + range - 1) / range * range

/-- `AdrpAdd` -/
def AdrpAdd (rd src dst : ℕ) : List ℕ :=
  let from_PAGE := ALIGN_FLOOR src 0x1000
  let to_PAGE := ALIGN_FLOOR dst 0x1000
  let to_PAGEOFF := dst % 0x1000
  [adrp rd (signed 64 (wrap (to_PAGE - from_PAGE))), add rd rd to_PAGEOFF]

/-- `llabs` of the difference of two addresses. -/
def distance (src dst : ℕ) : ℕ := (signed 64 (wrap (src - dst))).natAbs

/-- The reach of `adrp` -/
def adrp_range : ℕ := 1 <<< (2 + 19 + 12 - 1)

/-- `GenerateNormalTrampolineBuffer`: `adrp` and `add` where the target is in reach, a literal
elsewhere. -/
def GenerateNormalTrampolineBuffer (src dst : ℕ) : List ℕ :=
  let asm :=
    if distance src dst < adrp_range then
      (TurboAssembler.empty.EmitAll (AdrpAdd TMP_REG_0 src dst)).Emit (br TMP_REG_0)
    else LiteralLdrBranch .empty dst
  asm.RelocBind

section Encoding

variable {rd rn imm : ℕ}

/-- The word of `adrp` as a sum. -/
theorem adrp_eq (hrd : rd < 32) (offset : ℤ) :
    adrp rd offset = 0x90000000 + sbits (offset >>> (12 : ℕ)) 0 1 * 2 ^ 29 +
      sbits (offset >>> (12 : ℕ)) 2 20 * 2 ^ 5 + rd := by
  have hlo : sbits (offset >>> (12 : ℕ)) 0 1 < 2 ^ 2 := sbits_lt _ 0 1
  have hhi : sbits (offset >>> (12 : ℕ)) 2 20 < 2 ^ 19 := sbits_lt _ 2 20
  rw [adrp, leftShift_eq, leftShift_eq, Nat.mod_eq_of_lt hlo, Nat.mod_eq_of_lt hhi]
  generalize sbits (offset >>> (12 : ℕ)) 0 1 = lo at hlo
  generalize sbits (offset >>> (12 : ℕ)) 2 20 = hi at hhi
  have hsplit : 0x90000000 = 1 * 2 ^ 31 ||| 1 * 2 ^ 28 := rfl
  have hcomm : 0x90000000 ||| rd ||| lo * 2 ^ 29 ||| hi * 2 ^ 5 =
      1 * 2 ^ 31 ||| (lo * 2 ^ 29 ||| (1 * 2 ^ 28 ||| (hi * 2 ^ 5 ||| rd))) := by
    rw [hsplit]
    ac_rfl
  have hlow : hi * 2 ^ 5 ||| rd = hi * 2 ^ 5 + rd := mul_or hrd hi
  have hmid : 1 * 2 ^ 28 ||| (hi * 2 ^ 5 + rd) = 1 * 2 ^ 28 + (hi * 2 ^ 5 + rd) :=
    mul_or (by omega) 1
  have hhigh : lo * 2 ^ 29 ||| (1 * 2 ^ 28 + (hi * 2 ^ 5 + rd)) =
      lo * 2 ^ 29 + (1 * 2 ^ 28 + (hi * 2 ^ 5 + rd)) :=
    mul_or (by omega) lo
  rw [hcomm, hlow, hmid, hhigh, mul_or (by omega)]
  omega

/-- `ADRP` reaches a number of pages of 21 bits. -/
theorem decode_adrp_word (hrd : rd < 32) (offset : ℤ) :
    decode (adrp rd offset) = .adrp rd (4096 * signed 21 (offset / 4096 % 2 ^ 21).toNat) := by
  have heq := adrp_eq hrd offset
  have hlo : sbits (offset >>> (12 : ℕ)) 0 1 < 2 ^ 2 := sbits_lt _ 0 1
  have hhi : sbits (offset >>> (12 : ℕ)) 2 20 < 2 ^ 19 := sbits_lt _ 2 20
  have hpages : (offset / 4096 % 2 ^ 21).toNat =
      sbits (offset >>> (12 : ℕ)) 2 20 * 4 + sbits (offset >>> (12 : ℕ)) 0 1 := by
    have hshift : offset >>> (12 : ℕ) = offset / 4096 := Int.shiftRight_eq_div_pow offset 12
    rw [hshift, sbits_eq, sbits_eq]
    omega
  rw [hpages]
  clear hpages
  generalize adrp rd offset = w at heq
  generalize sbits (offset >>> (12 : ℕ)) 0 1 = lo at heq hlo
  generalize sbits (offset >>> (12 : ℕ)) 2 20 = hi at heq hhi
  have hclass : field w 24 5 = 0b10000 := by
    rw [field]
    omega
  have hop : field w 31 1 ≠ 0 := by
    rw [field]
    omega
  have hregister : field w 0 5 = rd := by
    rw [field]
    omega
  have hhigh : field w 5 19 = hi := by
    rw [field]
    omega
  have hlow : field w 29 2 = lo := by
    rw [field]
    omega
  rw [decode_address hclass, if_neg hop, hregister, addressOffset, hhigh, hlow]

/-- The word of an addition as a sum. -/
theorem add_eq (hrd : rd < 32) (hrn : rn < 32) (himm : imm < 2 ^ 12) :
    add rd rn imm = 0x91000000 + imm * 2 ^ 10 + rn * 2 ^ 5 + rd := by
  have hshift : rn <<< 5 = rn * 2 ^ 5 := Nat.shiftLeft_eq rn 5
  have hcomm : 0x91000000 ||| rd ||| rn * 2 ^ 5 ||| imm * 2 ^ 10 =
      0x91 * 2 ^ 24 ||| (imm * 2 ^ 10 ||| (rn * 2 ^ 5 ||| rd)) := by
    have hsplit : 0x91000000 = 0x91 * 2 ^ 24 := rfl
    rw [hsplit]
    ac_rfl
  have hlow : rn * 2 ^ 5 ||| rd = rn * 2 ^ 5 + rd := mul_or hrd rn
  have hmid : imm * 2 ^ 10 ||| (rn * 2 ^ 5 + rd) = imm * 2 ^ 10 + (rn * 2 ^ 5 + rd) :=
    mul_or (by omega) imm
  rw [add, leftShift_eq, Nat.mod_eq_of_lt himm, hshift, hcomm, hlow, hmid, mul_or (by omega)]
  omega

/-- The word of an addition is decoded as it. -/
theorem decode_add_word (hrd : rd < 32) (hrn : rn < 32) (himm : imm < 2 ^ 12) :
    decode (add rd rn imm) = .addImm rd rn imm := by
  have heq := add_eq hrd hrn himm
  generalize add rd rn imm = w at heq
  have hclass : field w 22 10 = 0b1001000100 := by
    rw [field]
    omega
  have hregister : field w 0 5 = rd := by
    rw [field]
    omega
  have hbase : field w 5 5 = rn := by
    rw [field]
    omega
  have himm' : field w 10 12 = imm := by
    rw [field]
    omega
  rw [decode_addImm hclass, hregister, hbase, himm']

/-- `B` reaches a number of instructions of 26 bits. -/
theorem decode_b_word (offset : ℤ) : decode (b offset) = .b
    (4 * signed 26 (offset / 4 % 2 ^ 26).toNat) := by
  have hlt : sbits (offset >>> (2 : ℕ)) 0 25 < 2 ^ 26 := sbits_lt _ 0 25
  have hinstructions : sbits (offset >>> (2 : ℕ)) 0 25 = (offset / 4 % 2 ^ 26).toNat := by
    have hshift : offset >>> (2 : ℕ) = offset / 4 := Int.shiftRight_eq_div_pow offset 2
    rw [hshift, sbits_eq]
    omega
  have heq : b offset = 0x14000000 + sbits (offset >>> (2 : ℕ)) 0 25 := mul_or hlt 5
  generalize b offset = w at heq
  have hclass : field w 26 5 = 0b00101 := by
    rw [field]
    omega
  have hop : field w 31 1 = 0 := by
    rw [field]
    omega
  have himm : field w 0 26 = sbits (offset >>> (2 : ℕ)) 0 25 := by
    rw [field]
    omega
  rw [decode_branch hclass, if_pos hop, branchOffset, himm, hinstructions]

end Encoding

/-- Where `adrp`, `add` and `br` lead that are at `src`. -/
def landing (src dst : ℕ) : ℕ :=
  if dst / 0x1000 = src / 0x1000 + 2 ^ 20 then wrap (dst - 2 ^ 33) else dst

section Landing

variable {src dst : ℕ}

/-- Addresses that are near are less than four gibibytes apart. -/
theorem distance_lt (hsrc : src < 2 ^ 63) (hdst : dst < 2 ^ 63)
    (hnear : distance src dst < adrp_range) :
    src < dst + 2 ^ 32 ∧ dst < src + 2 ^ 32 := by
  have hdifference : signed 64 (wrap (src - dst)) = src - dst := signed_wrap (by omega) (by omega)
  have hrange : adrp_range = 2 ^ 32 := rfl
  rw [distance, hdifference, hrange] at hnear
  omega

/-- The difference of two pages as `adrp` encodes it. -/
theorem page_difference (hsrc : src < 2 ^ 63) (hdst : dst < 2 ^ 63) :
    signed 64 (wrap ((ALIGN_FLOOR dst 0x1000 : ℕ) - (ALIGN_FLOOR src 0x1000 : ℕ))) / 4096 =
      (dst / 4096 : ℕ) - (src / 4096 : ℕ) := by
  have hdifference : signed 64
      (wrap ((ALIGN_FLOOR dst 0x1000 : ℕ) - (ALIGN_FLOOR src 0x1000 : ℕ))) =
      (ALIGN_FLOOR dst 0x1000 : ℕ) - (ALIGN_FLOOR src 0x1000 : ℕ) := by
    unfold ALIGN_FLOOR
    exact signed_wrap (by omega) (by omega)
  rw [hdifference, ALIGN_FLOOR, ALIGN_FLOOR]
  omega

/-- `2 ^ 20` pages ahead are read as as many pages back. -/
theorem signed_pages {pages : ℤ} (hlow : -2 ^ 20 ≤ pages) (hhigh : pages ≤ 2 ^ 20) :
    signed 21 (pages % 2 ^ 21).toNat = if pages = 2 ^ 20 then -2 ^ 20 else pages := by
  split_ifs with hpages
  · rw [hpages]
    rfl
  · exact signed_emod (by decide) hlow (by omega)

/-- The sum that `adrp` and `add` put together. -/
theorem adrpAdd_sum (hsrc : src < 2 ^ 63) (hdst : dst < 2 ^ 63)
    (hnear : distance src dst < adrp_range) :
    wrap ((wrap ((src / 4096 * 4096 : ℕ) + 4096 *
      signed 21 (((dst / 4096 : ℕ) - (src / 4096 : ℕ) : ℤ) % 2 ^ 21).toNat) : ℕ) +
        (dst % 4096 : ℕ)) =
      landing src dst := by
  obtain ⟨hbehind, hahead⟩ := distance_lt hsrc hdst hnear
  rw [signed_pages (by omega) (by omega), landing]
  split_ifs with hpages hmiss hmiss
  · unfold wrap
    omega
  · omega
  · omega
  · unfold wrap
    omega

variable {σ : Type*} {others : ℕ → Core σ → Core σ × Flow} {c : Core σ}

/-- `adrp`, `add` and `br`. -/
theorem reaches_adrpAdd (hsrc : src < 2 ^ 63) (hdst : dst < 2 ^ 63)
    (hnear : distance src dst < adrp_range)
    (h : SlotsAt c.mem src ((AdrpAdd TMP_REG_0 src dst ++ [br TMP_REG_0]).map .word)) :
    Reaches others (src, c) (landing src dst, c.set TMP_REG_0 (landing src dst)) := by
  obtain ⟨hadrp, hadd, hbr, -⟩ := h
  have hnext : wrap ((src + 4 : ℕ) + 4) = src + 4 + 4 := wrap_add_four (by omega)
  have hsum := adrpAdd_sum hsrc hdst hnear
  rw [← page_difference hsrc hdst] at hsum
  generalize hpage : wrap
    ((src / 4096 * 4096 : ℕ) + 4096 * signed 21 (signed 64 (wrap ((ALIGN_FLOOR dst 0x1000 : ℕ) -
    (ALIGN_FLOOR src 0x1000 : ℕ))) / 4096 % 2 ^ 21).toNat) = page at hsum
  have hfirst : step others (src, c) = (src + 4, c.set TMP_REG_0 page) := by
    rw [step_word hadrp, decode_adrp_word (by decide), exec, hpage,
      wrap_add_four (by omega), follow]
  have hsecond : step others (src + 4, c.set TMP_REG_0 page) =
      (src + 4 + 4, c.set TMP_REG_0 (landing src dst)) := by
    have hoffset : dst % 0x1000 < 2 ^ 12 := Nat.mod_lt _ (by decide)
    rw [step_word (by rwa [Core.mem_set]), decode_add_word (by decide) (by decide) hoffset, exec,
      hnext, follow, Core.base_set (by decide), Core.setBase_eq (by decide), Core.set_set, hsum]
  have hthird : step others (src + 4 + 4, c.set TMP_REG_0 (landing src dst)) =
      (landing src dst, c.set TMP_REG_0 (landing src dst)) := by
    rw [step_word (by rwa [Core.mem_set]), decode_br_word (by decide), exec, follow,
      Core.get_set (by decide)]
  exact .head hfirst (.head hsecond (.head hthird .refl))

end Landing

section Normal

variable {src dst : ℕ}

/-- The slots of a normal trampoline. -/
def normalSlots (src dst : ℕ) : List Slot :=
  if distance src dst < adrp_range then (AdrpAdd TMP_REG_0 src dst ++ [br TMP_REG_0]).map .word
  else [.load TMP_REG_0 dst, .word (br TMP_REG_0)]

/-- The instructions of a near trampoline are words. -/
theorem adrpAdd_lt (src dst : ℕ) :
    ∀ w ∈ AdrpAdd TMP_REG_0 src dst ++ [br TMP_REG_0], w < 2 ^ 32 := by
  have hlo :=
    sbits_lt
      (signed 64 (wrap ((ALIGN_FLOOR dst 0x1000 : ℕ) - (ALIGN_FLOOR src 0x1000 : ℕ))) >>> (12 : ℕ))
      0 1
  have hhi :=
    sbits_lt
      (signed 64 (wrap ((ALIGN_FLOOR dst 0x1000 : ℕ) - (ALIGN_FLOOR src 0x1000 : ℕ))) >>> (12 : ℕ))
      2 20
  have hoffset : dst % 0x1000 < 2 ^ 12 := Nat.mod_lt _ (by decide)
  rw [AdrpAdd, adrp_eq (by decide), add_eq (by decide) (by decide) hoffset]
  unfold TMP_REG_0
  simp only [List.cons_append, List.nil_append, List.forall_mem_cons]
  exact ⟨by omega, by omega, by decide, nofun⟩

/-- The slots of a normal trampoline can be encoded. -/
theorem normalSlots_encodable (hdst : dst < 2 ^ 64) :
    ∀ slot ∈ normalSlots src dst, slot.Encodable := by
  unfold normalSlots
  split_ifs
  · intro slot hslot
    obtain ⟨w, hw, rfl⟩ := List.mem_map.mp hslot
    exact adrpAdd_lt src dst w hw
  · simp only [List.forall_mem_cons]
    exact ⟨⟨by decide, hdst⟩, (by decide : br TMP_REG_0 < 2 ^ 32), nofun⟩

/-- A normal trampoline has at most four words. -/
theorem length_normalSlots (src dst : ℕ) : (assemble (normalSlots src dst)).length ≤ 4 := by
  unfold normalSlots
  split_ifs <;> simp [AdrpAdd, assemble, code, pool]

/-- A normal trampoline is the code of its slots. -/
theorem GenerateNormalTrampolineBuffer_eq (hdst : dst < 2 ^ 64) :
    GenerateNormalTrampolineBuffer src dst = assemble (normalSlots src dst) := by
  have hemitted : Emitted (if distance src dst < adrp_range then
      (TurboAssembler.empty.EmitAll (AdrpAdd TMP_REG_0 src dst)).Emit (br TMP_REG_0)
      else LiteralLdrBranch .empty dst) (normalSlots src dst) := by
    unfold normalSlots
    split_ifs
    · simpa using (Emitted.empty.emitAll (AdrpAdd TMP_REG_0 src dst)).emit (br TMP_REG_0)
    · simpa [LiteralLdrBranch] using (Emitted.empty.ldrData TMP_REG_0 dst).emit (br TMP_REG_0)
  have hlength := length_normalSlots src dst
  exact hemitted.relocBind (normalSlots_encodable hdst) (by omega)

/-- Where a normal trampoline leads. -/
def normalLanding (src dst : ℕ) : ℕ := if distance src dst < adrp_range then
    landing src dst else dst

/-- A normal trampoline leads to its target, but where `ADRP` does not reach it. -/
theorem reaches_normal {σ : Type*} {others : ℕ → Core σ → Core σ × Flow} {c : Core σ}
    (hsrc : src < 2 ^ 63)
    (hdst : dst < 2 ^ 63) (h : Holds c.mem src (bytesOf (GenerateNormalTrampolineBuffer src dst))) :
    Reaches others (src, c) (normalLanding src dst, c.set TMP_REG_0 (normalLanding src dst)) := by
  have hlength := length_normalSlots src dst
  rw [GenerateNormalTrampolineBuffer_eq (by omega)] at h
  have hslots := slotsAt_assemble (normalSlots_encodable (by omega)) (by omega) (by omega) h
  unfold normalSlots at hslots
  unfold normalLanding
  split_ifs at hslots ⊢ with hnear
  · exact reaches_adrpAdd hsrc hdst hnear hslots
  · exact reaches_load_br hslots (by omega)

/-- A normal trampoline leads to its target but for one distance of the pages, where it leads as far
back as it should lead ahead. -/
theorem normal_trampoline_lands {σ : Type*} {others : ℕ → Core σ → Core σ × Flow} {c : Core σ}
    (hsrc : src < 2 ^ 63)
    (hdst : dst < 2 ^ 63) (h : Holds c.mem src (bytesOf (GenerateNormalTrampolineBuffer src dst))) :
    ∃ pc value, Reaches others (src, c) (pc, c.set TMP_REG_0 value) ∧
      (pc = dst ↔ adrp_range ≤ distance src dst ∨ dst / 0x1000 ≠ src / 0x1000 + 2 ^ 20) ∧
      (pc ≠ dst → pc = wrap (dst - 2 ^ 33)) := by
  have hmiss : wrap ((dst : ℤ) - 2 ^ 33) ≠ dst := by
    unfold wrap
    omega
  refine ⟨_, _, reaches_normal hsrc hdst h, ?_, ?_⟩
  · unfold normalLanding landing
    split_ifs with hnear hpages
    · refine ⟨fun heq => absurd heq hmiss, ?_⟩
      rintro (hfar | hpages')
      · omega
      · exact absurd hpages hpages'
    · exact ⟨fun _ => .inr hpages, fun _ => rfl⟩
    · exact ⟨fun _ => .inl (Nat.le_of_not_lt hnear), fun _ => rfl⟩
  · unfold normalLanding landing
    split_ifs <;> simp

/-- From the middle of a page to the first bytes of the page `2 ^ 20` pages ahead. -/
theorem normal_trampoline_lands_behind : ∃ (c : Core Unit) (value : ℕ),
    Reaches (fun _ c => (c, .next)) (0x200000800, c) (0x100000100, c.set TMP_REG_0 value) := by
  obtain ⟨pc, value, hreach, hiff, hbehind⟩ := @normal_trampoline_lands 0x200000800 0x300000100 Unit
    (fun _ c => (c, .next)) ⟨fun _ => 0, 0, fun _ => 0, ⟨false, false, false, false⟩,
      write (fun _ => 0) 0x200000800
        (bytesOf (GenerateNormalTrampolineBuffer 0x200000800 0x300000100)), ()⟩
    (by decide) (by decide) holds_write
  have hne : pc ≠ 0x300000100 := fun heq => absurd (hiff.mp heq) (by decide)
  rw [hbehind hne] at hreach
  exact ⟨_, value, hreach⟩

end Normal

end XposedJniTrace.Dobby
