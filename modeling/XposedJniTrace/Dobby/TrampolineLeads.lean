import XposedJniTrace.Dobby.BlocksApart
import XposedJniTrace.Dobby.Interceptor

/-!
# Where trampolines lead

A trampoline that `GenerateTrampolineBuffer` makes is a normal one, a branch to the target, or a
branch to code in a block near the function that leads on. Each leads to the target, where `ADRP`
reaches it.
-/

namespace XposedJniTrace.Dobby

open Arm64 ByteMemory LiteralPool Span WordFields

/-- `ADRP` at an address reaches the page of the target. -/
def AdrpReaches (src dst : ℕ) : Prop := dst / 0x1000 ≠ src / 0x1000 + 2 ^ 20

/-- Code at an address that leads on to the target. -/
def Forward (addr dst : ℕ) (code : List ℕ) : Prop :=
  (distance addr dst < adrp_range ∧ AdrpReaches addr dst ∧
    code = AdrpAdd TMP_REG_0 addr dst ++ [br TMP_REG_0]) ∨
    code = Mov TMP_REG_0 dst ++ [br TMP_REG_0]

/-- A block within reach of a function has code that leads on. -/
structure LeadsOn (mem : Memory) (src dst : ℕ) (block : Span) (code : List ℕ) : Prop where
  forward : Forward block.start dst code
  size : block.size = 4 * code.length
  held : Holds mem block.start (bytesOf code)
  aligned : block.start % 4 = 0
  low : src ≤ block.start + ARM64_B_XXX_RANGE
  high : block.stop ≤ src + ARM64_B_XXX_RANGE

/-- The words at a function are a trampoline to the target; what it needs of the memory is in a
block. -/
inductive TrampolineAt (mem : Memory) (blocks : List Span) (src dst : ℕ) : List ℕ → Prop
  | normal (hreaches : AdrpReaches src dst) :
    TrampolineAt mem blocks src dst (GenerateNormalTrampolineBuffer src dst)
  | direct (hnear : ((dst : ℤ) - src).natAbs < ARM64_B_XXX_RANGE) :
    TrampolineAt mem blocks src dst [b (dst - src)]
  | forward {block : Span} {code : List ℕ} (hblock : block ∈ blocks)
    (hleads : LeadsOn mem src dst block code) :
    TrampolineAt mem blocks src dst [b (block.start - src)]

section Leads

variable {σ : Type*} {others : ℕ → Core σ → Core σ × Flow} {c : Core σ} {mem mem' : Memory}
  {blocks : List Span}
  {src dst : ℕ} {words code : List ℕ}

/-- In reach of `adrp`, a normal trampoline lands at its target. -/
theorem AdrpReaches.landing_eq (h : AdrpReaches src dst) : landing src dst = dst := if_neg h

/-- A branch within range leads to its target. -/
theorem step_b {target : ℕ} (htarget : target < 2 ^ 63) (hmod : ((target : ℤ) - src) % 4 = 0)
    (hlow : -2 ^ 27 ≤ (target : ℤ) - src) (hhigh : (target : ℤ) - src < 2 ^ 27)
    (h : SlotAt c.mem src (.word (b (target - src)))) : step others (src, c) = (target, c) := by
  have hoffset : signed 26 (((target : ℤ) - src) / 4 % 2 ^ 26).toNat = ((target : ℤ) - src) / 4 :=
    signed_emod (by decide) (by omega) (by omega)
  have hsum : (src : ℤ) + 4 * (((target : ℤ) - src) / 4) = target := by omega
  rw [step_word h, decode_b_word, exec, hoffset, hsum, follow, wrap_of_lt (by omega)]

/-- The code in a block leads to the target. -/
theorem reaches_forward (haddr : src + 20 < 2 ^ 63) (hdst : dst < 2 ^ 63)
    (hcode : Forward src dst code)
    (h : Holds c.mem src (bytesOf code)) : Reaches others (src, c) (dst, c.set TMP_REG_0 dst) := by
  rcases hcode with ⟨hnear, hreaches, rfl⟩ | rfl
  · have hreach : Reaches others (src, c) _ :=
      reaches_adrpAdd (by omega) hdst hnear (slotsAt_words (adrpAdd_lt src dst) h)
    rwa [hreaches.landing_eq] at hreach
  · have hwords : ∀ w ∈ Mov TMP_REG_0 dst ++ [br TMP_REG_0], w < 2 ^ 32 := by
      rw [List.forall_mem_append, List.forall_mem_singleton]
      exact ⟨encodable_Mov (by decide) (by omega), br_lt⟩
    have hslots := slotsAt_words hwords h
    rw [List.map_append, slotsAt_append] at hslots
    obtain ⟨hmov, hbr, -⟩ := hslots
    have hstep : step others (src + 16, c.set TMP_REG_0 dst) = (dst, c.set TMP_REG_0 dst) := by
      rw [step_word (by rwa [Core.mem_set]), decode_br_word (by decide), exec, follow,
        Core.get_set (by decide)]
    exact (reaches_Mov (by decide) (by omega) hmov (by omega)).trans (.head hstep .refl)

/-- The word of a branch is a word. -/
theorem b_lt (offset : ℤ) : b offset < 2 ^ 32 := by
  have hlt : sbits (offset >>> (2 : ℕ)) 0 25 < 2 ^ 26 := sbits_lt _ 0 25
  have heq : b offset = 0x14000000 + sbits (offset >>> (2 : ℕ)) 0 25 := mul_or hlt 5
  omega

/-- A trampoline leads to its target and changes nothing but `TMP_REG_0`. -/
theorem TrampolineAt.reaches (h : TrampolineAt c.mem blocks src dst words) (hsrc : src < 2 ^ 62)
    (hdst : dst < 2 ^ 62)
    (hsrcMod : src % 4 = 0) (hdstMod : dst % 4 = 0) (hheld : Holds c.mem src (bytesOf words)) :
    ∃ value, Reaches others (src, c) (withTmp value (dst, c)) := by
  have hrange : ARM64_B_XXX_RANGE = 2 ^ 27 := rfl
  cases h with
  | normal hreaches =>
    have hreach : Reaches others (src, c) _ := reaches_normal (by omega) (by omega) hheld
    have hlanding : normalLanding src dst = dst := by
      unfold normalLanding
      split_ifs
      · exact hreaches.landing_eq
      · rfl
    rw [hlanding] at hreach
    exact ⟨dst, hreach⟩
  | direct hnear =>
    rw [hrange] at hnear
    have hstep : step others (src, c) = (dst, c) :=
      step_b (by omega) (by omega) (by omega) (by omega) (number_of_holds_cons (b_lt _) hheld)
    refine ⟨c.get TMP_REG_0, ?_⟩
    rw [withTmp, Core.set_get]
    exact .head hstep .refl
  | @forward block code hblock hleads =>
    have hlow := hleads.low
    have hhigh := hleads.high
    have hmod := hleads.aligned
    have hsize := hleads.size
    have hlength : 0 < code.length := by
      rcases hleads.forward with ⟨-, -, rfl⟩ | rfl <;> simp [AdrpAdd]
    rw [stop] at hhigh
    have hstep : step others (src, c) = (block.start, c) :=
      step_b (by omega) (by omega) (by omega) (by omega) (number_of_holds_cons (b_lt _) hheld)
    exact ⟨dst, .head hstep (reaches_forward (by omega) (by omega) hleads.forward hleads.held)⟩

/-- A trampoline stays one while its block stays as it is. -/
theorem TrampolineAt.congr {blocks' : List Span} (h : TrampolineAt mem blocks src dst words)
    (hsubset : blocks ⊆ blocks')
    (hagree : ∀ block ∈ blocks, AgreeOn mem mem' block.start block.size) :
    TrampolineAt mem' blocks' src dst words := by
  cases h with
  | normal hreaches => exact .normal hreaches
  | direct hnear => exact .direct hnear
  | @forward block code hblock hleads =>
    have hheld : Holds mem' block.start (bytesOf code) := by
      apply hleads.held.congr
      rw [length_bytesOf, ← hleads.size]
      exact hagree block hblock
    exact .forward (hsubset hblock) { hleads with held := hheld }

/-- A trampoline has one to four instructions. -/
theorem TrampolineAt.length_le (h : TrampolineAt mem blocks src dst words) (hdst : dst < 2 ^ 64) :
    0 < words.length ∧ words.length ≤ 4 := by
  cases h with
  | normal =>
    rw [GenerateNormalTrampolineBuffer_eq hdst]
    unfold normalSlots
    split_ifs <;> simp [AdrpAdd, assemble, LiteralPool.code, pool]
  | direct => simp
  | forward => simp

end Leads

section Generate

variable {mem : Memory} {arenas : List MemoryArena} {program blocks : List Span} {kernel : Kernel}
  {page src dst : ℕ}
  {w : World}

/-- Behind a call there are new blocks, and nothing else has changed. -/
def Adds {α : Type} (program blocks new : List Span) (mem : Memory)
    (generated : Generated α) : Prop :=
  Sound program generated.arenas (new ++ blocks) ∧ ∀ a, (∀ block ∈ new, ¬ block.Has a) →
    generated.mem a = mem a

/-- The kernel is taken at its word at both requests for memory near a function. -/
structure NearKernel (page : ℕ) (kernel : Kernel) (program : List Span) (src : ℕ)
    (arenas : List MemoryArena) : Prop where
  first : NearAdmitted page 12 src ARM64_B_XXX_RANGE kernel.regions program arenas
  second : ∀ block arenas',
    allocateNearExecMemory page 12 src ARM64_B_XXX_RANGE kernel.regions kernel.granted arenas =
      some (block, arenas') →
      NearAdmitted page 20 src ARM64_B_XXX_RANGE kernel.regions' program arenas'

/-- Bytes that are written to a block change nothing outside it. -/
theorem patch_outside {block : Span} {code : List ℕ} (hsize : block.size = 4 * code.length) {a : ℕ}
    (ha : ¬ block.Has a) :
    DobbyCodePatch mem block.start (bytesOf code) a = mem a := by
  apply write_outside
  rw [length_bytesOf, ← hsize]
  simp only [Has, stop, not_and, Nat.not_lt] at ha
  omega

/-- A fast-forward trampoline adds its blocks, and the last one leads on. -/
theorem GenerateFastForwardTrampoline_adds (mem : Memory) (hpage : 0 < page) (hfour : page % 4 = 0)
    (hprogram : ∀ s ∈ program, 0 < s.size) (h : Sound program arenas blocks)
    (hkernel : NearKernel page kernel program src arenas)
    (hreaches : ∀ addr, src ≤ addr + ARM64_B_XXX_RANGE → addr ≤ src + ARM64_B_XXX_RANGE →
      AdrpReaches addr dst) :
    ∃ new, Adds program blocks new mem
      (GenerateFastForwardTrampoline page kernel src dst mem arenas) ∧
      ∀ addr, (GenerateFastForwardTrampoline page kernel src dst mem arenas).result = some addr →
        ∃ block ∈ new, addr = block.start ∧ ∃ code, LeadsOn
          (GenerateFastForwardTrampoline page kernel src dst mem arenas).mem src
            dst block code := by
  unfold GenerateFastForwardTrampoline
  cases hfirst : allocateNearExecMemory page 12 src ARM64_B_XXX_RANGE kernel.regions
    kernel.granted arenas with
  | none => exact ⟨[], ⟨h, fun _ _ => rfl⟩, nofun⟩
  | some found =>
    obtain ⟨block, arenas'⟩ := found
    obtain ⟨hsize, hsound, hmod, hlow, hhigh⟩ :=
      allocateNearExecMemory_sound hpage hfour h hprogram hkernel.first hfirst
    simp only
    split_ifs with hnear
    · refine ⟨[block], ⟨hsound, fun a ha => patch_outside hsize (ha block List.mem_cons_self)⟩, ?_⟩
      intro addr haddr
      have hstart : block.start ≤ src + ARM64_B_XXX_RANGE :=
        Nat.le_trans (Nat.le_add_right _ _) hhigh
      exact ⟨block, List.mem_cons_self, (Option.some_injective _ haddr).symm, _,
        .inl ⟨hnear, hreaches block.start hlow hstart, rfl⟩, hsize, holds_write, hmod, hlow, hhigh⟩
    · cases hsecond : allocateNearExecMemory page 20 src ARM64_B_XXX_RANGE kernel.regions'
        kernel.granted' arenas' with
      | none => exact ⟨[block], ⟨hsound, fun _ _ => rfl⟩, nofun⟩
      | some found' =>
        obtain ⟨block', arenas''⟩ := found'
        obtain ⟨hsize', hsound', hmod', hlow', hhigh'⟩ :=
          allocateNearExecMemory_sound hpage hfour hsound hprogram
            (hkernel.second _ _ hfirst) hsecond
        refine ⟨[block', block],
          ⟨hsound', fun a ha => patch_outside hsize' (ha block' List.mem_cons_self)⟩, ?_⟩
        intro addr haddr
        exact ⟨block', List.mem_cons_self, (Option.some_injective _ haddr).symm, _, .inr rfl,
          hsize', holds_write, hmod', hlow', hhigh'⟩

/-- A trampoline adds its blocks and leads on. -/
theorem GenerateTrampolineBuffer_adds (hpage : 0 < page) (hfour : page % 4 = 0)
    (hprogram : ∀ s ∈ program, 0 < s.size) (h : Sound program w.arenas blocks)
    (hkernel : w.near_branch_trampoline = true → NearKernel page kernel program src w.arenas)
    (hnormal : AdrpReaches src dst)
    (hreaches : w.near_branch_trampoline = true →
      ∀ addr, src ≤ addr + ARM64_B_XXX_RANGE → addr ≤ src + ARM64_B_XXX_RANGE →
        AdrpReaches addr dst) :
    ∃ new, Adds program blocks new w.mem (GenerateTrampolineBuffer page kernel src dst w) ∧
      TrampolineAt (GenerateTrampolineBuffer page kernel src dst w).mem (new ++ blocks) src dst
        (GenerateTrampolineBuffer page kernel src dst w).result := by
  unfold GenerateTrampolineBuffer
  cases hmode : w.near_branch_trampoline with
  | false => exact ⟨[], ⟨h, fun _ _ => rfl⟩, .normal hnormal⟩
  | true =>
    unfold GenerateNearTrampolineBuffer
    simp only [if_true]
    split_ifs with hnear
    · exact ⟨[], ⟨h, fun _ _ => rfl⟩, .direct hnear⟩
    · obtain ⟨new, hadds, hleads⟩ := GenerateFastForwardTrampoline_adds w.mem hpage hfour hprogram h
        (hkernel hmode) (hreaches hmode)
      refine ⟨new, hadds, ?_⟩
      cases hresult : (GenerateFastForwardTrampoline page kernel src dst w.mem w.arenas).result with
      | none => exact .normal hnormal
      | some addr =>
        obtain ⟨block, hblock, rfl, code, hcode⟩ := hleads addr hresult
        exact .forward (List.mem_append_left _ hblock) hcode

end Generate

end XposedJniTrace.Dobby
