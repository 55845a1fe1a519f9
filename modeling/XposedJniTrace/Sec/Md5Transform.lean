import XposedJniTrace.Sec.Md5Utils
import Mathlib.Data.List.GetD

/-!
# The compression of `Md5Utils`

The 64 calls of `transform` compute the compression of the digest's definition: four calls
with the registers in turn are four steps of the definition, which moves the words instead.
The shifts and masks of `decode` and `encode` are the little-endian numbers of the library.
-/

namespace XposedJniTrace.Md5Utils

/-- `rotate_left` is the rotation of a 32-bit word. -/
theorem rotate_left_eq_rotl (x n : UInt32) : rotate_left x n = Md5.rotl x n.toNat := by
  have hn : n.toBitVec.toNat < 2 ^ 32 := n.toBitVec.isLt
  have hmod : (n.toBitVec % 32#32).toNat = n.toNat % 32 := rfl
  have hsub : ((32#32 - n.toBitVec) % 32#32).toNat = (32 - n.toNat % 32) % 32 := by
    have h : ((32#32 - n.toBitVec) % 32#32).toNat =
        (2 ^ 32 - n.toBitVec.toNat + 32) % 2 ^ 32 % 32 := rfl
    have h' : n.toBitVec.toNat = n.toNat := rfl
    omega
  apply UInt32.eq_of_toBitVec_eq
  change x.toBitVec <<< (n.toBitVec % 32#32).toNat |||
    x.toBitVec >>> ((32#32 - n.toBitVec) % 32#32).toNat
    = x.toBitVec <<< (n.toNat % 32) ||| x.toBitVec >>> (32 - n.toNat % 32)
  rw [hmod, hsub]
  by_cases hzero : n.toNat % 32 = 0
  · -- a rotation by nothing: the code shifts both ways by nothing, the definition out of the word
    rw [hzero, BitVec.ushiftRight_eq_zero (Nat.le_refl 32)]
    simp
  · rw [Nat.mod_eq_of_lt (by omega : 32 - n.toNat % 32 < 32)]

/-- One call, with the sum and the rotation as the definition writes them. -/
theorem roundStep_eq (f : UInt32 → UInt32 → UInt32 → UInt32) (ra rb rc rd : Reg) (x s t : UInt32)
    (r : Md5.State) :
    roundStep f ra rb rc rd x s t r =
      ra.set r (rb.get r
        + Md5.rotl (ra.get r + f (rb.get r) (rc.get r) (rd.get r) + x + t) s.toNat) := by
  rw [roundStep, rotate_left_eq_rotl, UInt32.add_comm]

/-- Four calls with the registers in turn are four steps of the definition. -/
theorem roundStep_quad (f : UInt32 → UInt32 → UInt32 → UInt32) (x₀ x₁ x₂ x₃ s₀ s₁ s₂ s₃ t₀ t₁ t₂ t₃)
    (r : Md5.State) :
    (r |> roundStep f .a .b .c .d x₀ s₀ t₀ |> roundStep f .d .a .b .c x₁ s₁ t₁
        |> roundStep f .c .d .a .b x₂ s₂ t₂ |> roundStep f .b .c .d .a x₃ s₃ t₃) =
      (r |> Md5.stepWith f x₀ s₀.toNat t₀ |> Md5.stepWith f x₁ s₁.toNat t₁
        |> Md5.stepWith f x₂ s₂.toNat t₂ |> Md5.stepWith f x₃ s₃.toNat t₃) := by
  simp only [roundStep_eq]
  rfl

/-- The sixteen calls of round 1 are steps 0 to 15. -/
theorem round1_eq (x : ℕ → UInt32) (r : Md5.State) :
    round1 x r = (List.range' 0 16).foldl (Md5.step x) r := by
  simp only [round1, FF, roundStep_quad]
  rfl

/-- The sixteen calls of round 2 are steps 16 to 31. -/
theorem round2_eq (x : ℕ → UInt32) (r : Md5.State) :
    round2 x r = (List.range' 16 16).foldl (Md5.step x) r := by
  simp only [round2, GG, roundStep_quad]
  rfl

/-- The sixteen calls of round 3 are steps 32 to 47. -/
theorem round3_eq (x : ℕ → UInt32) (r : Md5.State) :
    round3 x r = (List.range' 32 16).foldl (Md5.step x) r := by
  simp only [round3, HH, roundStep_quad]
  rfl

/-- The sixteen calls of round 4 are steps 48 to 63. -/
theorem round4_eq (x : ℕ → UInt32) (r : Md5.State) :
    round4 x r = (List.range' 48 16).foldl (Md5.step x) r := by
  simp only [round4, II, roundStep_quad]
  rfl

/-- A step reads one of the sixteen words of its block. -/
theorem wordIndex_lt (i : ℕ) : Md5.wordIndex i < 16 := by
  unfold Md5.wordIndex
  split_ifs <;> omega

/-- The four rounds are the 64 steps on a block whose words they read. -/
theorem rounds_eq {x y : ℕ → UInt32} (hxy : ∀ k < 16, x k = y k) (r : Md5.State) :
    round4 x (round3 x (round2 x (round1 x r))) = (List.range 64).foldl (Md5.step y) r := by
  have hrange : List.range 64 =
      List.range' 0 16 ++ (List.range' 16 16 ++ (List.range' 32 16 ++ List.range' 48 16)) := by
    decide
  rw [round1_eq, round2_eq, round3_eq, round4_eq, ← List.foldl_append, ← List.foldl_append,
    ← List.foldl_append, ← hrange]
  apply List.foldl_ext
  intro st i _
  rw [Md5.step, Md5.step, hxy _ (wordIndex_lt i)]

/-- An or with a shifted number is a sum when the bits do not meet. -/
theorem or_shiftLeft {lo i : ℕ} (h : lo < 2 ^ i) (hi : ℕ) : lo ||| hi <<< i = lo + hi * 2 ^ i := by
  rw [Nat.or_comm, ← Nat.shiftLeft_add_eq_or_of_lt h, Nat.shiftLeft_eq, Nat.add_comm]

/-- The shifts of `decode` put four bytes together least significant first. -/
theorem or_bytes_eq (b₀ b₁ b₂ b₃ : UInt8) :
    b₀.toUInt32 ||| b₁.toUInt32 <<< 8 ||| b₂.toUInt32 <<< 16 ||| b₃.toUInt32 <<< 24 =
      UInt32.ofNat (LittleEndian.decode [b₀, b₁, b₂, b₃]) := by
  have h₀ := b₀.toNat_lt
  have h₁ := b₁.toNat_lt
  have h₂ := b₂.toNat_lt
  have h₃ := b₃.toNat_lt
  have shift (b : UInt8) (n : UInt32) (hn : n.toNat ≤ 24) :
      (b.toUInt32 <<< n).toNat = b.toNat <<< n.toNat := by
    have hb := b.toNat_lt
    have hle : b.toNat * 2 ^ n.toNat ≤ b.toNat * 2 ^ 24 :=
      Nat.mul_le_mul_left _ (Nat.pow_le_pow_right (by omega) hn)
    rw [UInt32.toNat_shiftLeft, UInt8.toNat_toUInt32, Nat.mod_eq_of_lt (by omega : n.toNat < 32),
      Nat.mod_eq_of_lt (by rw [Nat.shiftLeft_eq]; omega)]
  apply UInt32.toNat_inj.mp
  rw [UInt32.toNat_or, UInt32.toNat_or, UInt32.toNat_or, shift _ _ (by decide),
    shift _ _ (by decide), shift _ _ (by decide), UInt8.toNat_toUInt32]
  have hor₁ : b₀.toNat ||| b₁.toNat <<< 8 = b₀.toNat + b₁.toNat * 2 ^ 8 :=
    or_shiftLeft (by omega) _
  have hor₂ : (b₀.toNat ||| b₁.toNat <<< 8) ||| b₂.toNat <<< 16 =
      b₀.toNat + b₁.toNat * 2 ^ 8 + b₂.toNat * 2 ^ 16 := by
    rw [hor₁]
    exact or_shiftLeft (by omega) _
  change (b₀.toNat ||| b₁.toNat <<< 8 ||| b₂.toNat <<< 16) ||| b₃.toNat <<< 24 = _
  rw [hor₂, or_shiftLeft (by omega), UInt32.toNat_ofNat']
  simp only [LittleEndian.decode]
  omega

/-- Four bytes of a list, one by one. -/
theorem take_four_drop {block : List UInt8} {j : ℕ} (h : j + 4 ≤ block.length) :
    (block.drop j).take 4 =
      [block.getD j 0, block.getD (j + 1) 0, block.getD (j + 2) 0, block.getD (j + 3) 0] := by
  rw [List.drop_eq_getElem_cons (by omega), List.drop_eq_getElem_cons (by omega),
    List.drop_eq_getElem_cons (by omega), List.drop_eq_getElem_cons (by omega),
    List.getD_eq_getElem _ _ (by omega), List.getD_eq_getElem _ _ (by omega),
    List.getD_eq_getElem _ _ (by omega), List.getD_eq_getElem _ _ (by omega)]
  rfl

/-- `decode` stores the words of the block that its pointer leads to. -/
theorem decodeWord_eq_word {block : List UInt8} {k : ℕ} (hblock : 64 ≤ block.length) (hk : k < 16) :
    decodeWord block k = Md5.word (block.take 64) k := by
  have hmin : min 4 (64 - 4 * k) = 4 := by omega
  rw [decodeWord, Md5.word, or_bytes_eq, List.drop_take, List.take_take, hmin,
    take_four_drop (by omega)]

/-- `transform` is the compression of the definition, on the 64 bytes behind the pointer. -/
theorem transform_eq_compress {block : List UInt8} (hblock : 64 ≤ block.length) (st : Md5.State) :
    transform st block = Md5.compress st (block.take 64) := by
  have hwords : ∀ k < 16, (decode block 64).getD k 0 = Md5.word (block.take 64) k := by
    intro k hk
    rw [decode, List.getD_eq_getElem _ _ (by simpa using hk), List.getElem_map, List.getElem_range,
      decodeWord_eq_word hblock hk]
  rw [transform, rounds_eq hwords, Md5.compress]

/-- A byte of a word, by shift and mask. -/
theorem shiftRight_and_toUInt8 (w n : UInt32) (hn : n.toNat < 32) :
    ((w >>> n) &&& 0xff).toUInt8 = UInt8.ofNat (w.toNat / 2 ^ n.toNat % 256) := by
  have hmask : ∀ m : ℕ, m &&& 255 = m % 256 := Nat.and_two_pow_sub_one_eq_mod (n := 8)
  apply UInt8.toNat_inj.mp
  rw [UInt32.toNat_toUInt8, UInt32.toNat_and, UInt32.toNat_shiftRight, Nat.mod_eq_of_lt hn,
    Nat.shiftRight_eq_div_pow, UInt8.toNat_ofNat']
  change (w.toNat / 2 ^ n.toNat &&& 255) % 256 = _
  rw [hmask]

/-- `encode` stores a word least significant byte first. -/
theorem encodeWord_eq (w : UInt32) : encodeWord w = LittleEndian.encode 4 w.toNat := by
  have h₀ := shiftRight_and_toUInt8 w 0 (by decide)
  have h₁ := shiftRight_and_toUInt8 w 8 (by decide)
  have h₂ := shiftRight_and_toUInt8 w 16 (by decide)
  have h₃ := shiftRight_and_toUInt8 w 24 (by decide)
  rw [UInt32.shiftRight_zero, UInt32.toNat_zero, pow_zero, Nat.div_one] at h₀
  rw [encodeWord, h₀, h₁, h₂, h₃]
  simp only [LittleEndian.encode, Nat.div_div_eq_div_mul]
  rfl

/-- The words of the state are output by `encode` as the definition outputs them. -/
theorem encode_state (st : Md5.State) : encode [st.a, st.b, st.c, st.d] = Md5.output st := by
  have h : encodeWord = fun w => LittleEndian.encode 4 w.toNat := by
    funext w
    exact encodeWord_eq w
  rw [encode, Md5.output, h]

end XposedJniTrace.Md5Utils
