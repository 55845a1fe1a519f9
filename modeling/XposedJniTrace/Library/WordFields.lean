import Mathlib.Data.Nat.Bitwise
import Mathlib.Tactic.Positivity
import Mathlib.Tactic.Ring

/-!
# Fields of machine words

A field is a run of bits of a number. Comparisons under a mask and words put together by shifts and
`or` are brought to fields and sums, where the arithmetic of naturals decides them.
-/

namespace WordFields

/-- The field of `len` bits from bit `lo` on. -/
def field (w lo len : ℕ) : ℕ := w / 2 ^ lo % 2 ^ len

/-- A number of `len` bits in two's complement. -/
def signed (len n : ℕ) : ℤ := if n < 2 ^ (len - 1) then n else n - 2 ^ len

/-- A number modulo `2 ^ 64`, as registers and addresses hold it. -/
def wrap (z : ℤ) : ℕ := (z % 2 ^ 64).toNat

/-- A field has as many bits as it is long. -/
theorem field_lt (w lo len : ℕ) : field w lo len < 2 ^ len := Nat.mod_lt _ (Nat.two_pow_pos len)

/-- The bits of a field are those of the word from its place on. -/
theorem testBit_field (w lo len i : ℕ) :
    (field w lo len).testBit i = (decide (i < len) && w.testBit (i + lo)) := by
  rw [field, Nat.testBit_mod_two_pow, Nat.testBit_div_two_pow]

/-- A field is what a shift and a mask leave. -/
theorem shiftRight_and (w lo len : ℕ) : w >>> lo &&& (2 ^ len - 1) = field w lo len := by
  rw [Nat.and_two_pow_sub_one_eq_mod, Nat.shiftRight_eq_div_pow, field]

/-- What is under the mask of a field. -/
theorem and_mask (w lo len : ℕ) : w &&& (2 ^ len - 1) <<< lo = field w lo len * 2 ^ lo := by
  apply Nat.eq_of_testBit_eq
  intro i
  rw [Nat.testBit_and, Nat.testBit_shiftLeft, Nat.testBit_two_pow_sub_one, Nat.testBit_mul_two_pow,
    testBit_field]
  by_cases hlo : lo ≤ i
  · have hi : i - lo + lo = i := by omega
    simp [hlo, hi, Bool.and_comm]
  · simp [hlo]

/-- A comparison under the mask of a field. -/
theorem and_mask_eq_iff (w lo len v : ℕ) :
    w &&& (2 ^ len - 1) <<< lo = v * 2 ^ lo ↔ field w lo len = v := by
  rw [and_mask]
  exact Nat.mul_left_inj (Nat.two_pow_pos lo).ne'

/-- A shifted number and one below the shift are put together by `or`. -/
theorem mul_or {b k : ℕ} (h : b < 2 ^ k) (a : ℕ) : a * 2 ^ k ||| b = a * 2 ^ k + b := by
  rw [Nat.mul_comm, Nat.two_pow_add_eq_or_of_lt h]

/-- A word with the field of `len` bits from bit `lo` on replaced. -/
def replace (w lo len v : ℕ) : ℕ := ((2 ^ 32 - 1) ^^^ ((2 ^ len - 1) <<< lo)) &&& w ||| v <<< lo

/-- The bits of a word with a field replaced. -/
theorem testBit_replace {w lo len v : ℕ} (hw : w < 2 ^ 32) (hv : v < 2 ^ len)
    (hlen : lo + len ≤ 32) (i : ℕ) :
    (replace w lo len v).testBit i =
      if lo ≤ i ∧ i < lo + len then v.testBit (i - lo) else w.testBit i := by
  have htop : 32 ≤ i → w.testBit i = false := fun hi =>
    Nat.testBit_eq_false_of_lt (Nat.lt_of_lt_of_le hw (Nat.pow_le_pow_right (by decide) hi))
  have hout : len ≤ i - lo → v.testBit (i - lo) = false := fun hi =>
    Nat.testBit_eq_false_of_lt (Nat.lt_of_lt_of_le hv (Nat.pow_le_pow_right (by decide) hi))
  rw [replace, Nat.testBit_or, Nat.testBit_and, Nat.testBit_xor, Nat.testBit_shiftLeft,
    Nat.testBit_shiftLeft, Nat.testBit_two_pow_sub_one, Nat.testBit_two_pow_sub_one]
  by_cases hlo : lo ≤ i
  · by_cases hi : i < lo + len
    · have hlt : i - lo < len := by omega
      have h32 : i < 32 := by omega
      simp [hlo, hi, hlt, h32]
    · have hge : len ≤ i - lo := by omega
      by_cases h32 : i < 32
      · simp [hlo, hi, h32, hout hge, Nat.not_lt.mpr hge]
      · simp [hlo, hi, h32, hout hge, Nat.not_lt.mpr hge, htop (Nat.not_lt.mp h32)]
  · by_cases h32 : i < 32
    · simp [hlo, h32]
    · simp [hlo, h32, htop (Nat.not_lt.mp h32)]

/-- The field that is replaced. -/
theorem field_replace {w lo len v : ℕ} (hw : w < 2 ^ 32) (hv : v < 2 ^ len) (hlen : lo + len ≤ 32) :
    field (replace w lo len v) lo len = v := by
  apply Nat.eq_of_testBit_eq
  intro i
  rw [testBit_field, testBit_replace hw hv hlen]
  by_cases hi : i < len
  · have hin : lo ≤ i + lo ∧ i + lo < lo + len := by omega
    rw [if_pos hin, Nat.add_sub_cancel, decide_eq_true hi, Bool.true_and]
  · rw [decide_eq_false hi, Bool.false_and]
    exact (Nat.testBit_eq_false_of_lt
      (Nat.lt_of_lt_of_le hv (Nat.pow_le_pow_right (by decide) (Nat.not_lt.mp hi)))).symm

/-- A field beside the one that is replaced stays. -/
theorem field_replace_of_disjoint {w lo len v : ℕ} (hw : w < 2 ^ 32) (hv : v < 2 ^ len)
    (hlen : lo + len ≤ 32) {lo' len' : ℕ} (h : lo' + len' ≤ lo ∨ lo + len ≤ lo') :
    field (replace w lo len v) lo' len' = field w lo' len' := by
  apply Nat.eq_of_testBit_eq
  intro i
  rw [testBit_field, testBit_field, testBit_replace hw hv hlen]
  by_cases hi : i < len'
  · have hout : ¬ (lo ≤ i + lo' ∧ i + lo' < lo + len) := by omega
    rw [if_neg hout]
  · rw [decide_eq_false hi, Bool.false_and, Bool.false_and]

/-- A word with a field replaced is a word. -/
theorem replace_lt {w lo len v : ℕ} (hw : w < 2 ^ 32) (hv : v < 2 ^ len) (hlen : lo + len ≤ 32) :
    replace w lo len v < 2 ^ 32 := by
  apply Nat.lt_pow_two_of_testBit
  intro i hi
  have hout : ¬ (lo ≤ i ∧ i < lo + len) := by omega
  rw [testBit_replace hw hv hlen, if_neg hout]
  exact Nat.testBit_eq_false_of_lt (Nat.lt_of_lt_of_le hw (Nat.pow_le_pow_right (by decide) hi))

/-- Four times a number in two's complement. -/
theorem signed_four_mul {len : ℕ} (hlen : 0 < len) (n : ℕ) :
    signed (2 + len) (n * 4) = 4 * signed len n := by
  obtain ⟨k, rfl⟩ : ∃ k, len = k + 1 := ⟨len - 1, by omega⟩
  have hhalf : 2 ^ (2 + (k + 1) - 1) = 4 * 2 ^ (k + 1 - 1) := by
    rw [Nat.add_sub_cancel, ← Nat.add_assoc, Nat.add_sub_cancel, Nat.pow_add]
  have hwhole : (2 : ℤ) ^ (2 + (k + 1)) = 4 * 2 ^ (k + 1) := by rw [pow_add]; rfl
  unfold signed
  rw [hhalf, hwhole]
  split_ifs with hleft hright hright
  · push_cast
    ring
  · omega
  · omega
  · push_cast
    ring

/-- A number in range is read back from its two's complement. -/
theorem signed_emod {len : ℕ} (hlen : 0 < len) {z : ℤ} (hlow : -2 ^ (len - 1) ≤ z)
    (hhigh : z < 2 ^ (len - 1)) :
    signed len (z % 2 ^ len).toNat = z := by
  obtain ⟨k, rfl⟩ : ∃ k, len = k + 1 := ⟨len - 1, by omega⟩
  rw [Nat.add_sub_cancel] at hlow hhigh
  have hwhole : (2 : ℤ) ^ (k + 1) = 2 * 2 ^ k := by ring
  have hpos : (0 : ℤ) < 2 ^ k := by positivity
  have hcast : ((2 ^ k : ℕ) : ℤ) = 2 ^ k := by push_cast; rfl
  unfold signed
  rw [Nat.add_sub_cancel]
  by_cases hz : 0 ≤ z
  · have hmod : z % 2 ^ (k + 1) = z := Int.emod_eq_of_lt hz (by omega)
    rw [hmod, if_pos (by omega), Int.toNat_of_nonneg hz]
  · have hmod : z % 2 ^ (k + 1) = z + 2 ^ (k + 1) := by
      rw [← Int.add_emod_right]
      exact Int.emod_eq_of_lt (by omega) (by omega)
    rw [hmod, if_neg (by omega), Int.toNat_of_nonneg (by omega)]
    ring

/-- A number of 64 bits is kept by its two's complement. -/
theorem signed_wrap {z : ℤ} (hlow : -2 ^ 63 ≤ z) (hhigh : z < 2 ^ 63) : signed 64 (wrap z) = z :=
  signed_emod (by decide) hlow hhigh

/-- A wrapped number is a word. -/
theorem wrap_lt (z : ℤ) : wrap z < 2 ^ 64 := by
  rw [wrap]
  omega

/-- A number that fits is not wrapped. -/
theorem wrap_of_lt {n : ℕ} (h : n < 2 ^ 64) : wrap n = n := by
  rw [wrap]
  omega

end WordFields
