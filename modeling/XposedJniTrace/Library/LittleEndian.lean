import Mathlib.Data.List.Basic
import Mathlib.Tactic.Positivity
import Mathlib.Tactic.Ring

/-!
# Little-endian numbers in byte lists

The fixed-width encoding of a natural number, the number that a byte list denotes, and the
overlay that a read of fewer bytes than the width leaves in a variable: the bytes that
arrived replace the low-order ones and the others keep their old value.
-/

namespace LittleEndian

/-- The number whose bytes, least significant first, are the list. -/
def decode : List UInt8 → ℕ
  | [] => 0
  | b :: rest => b.toNat + 256 * decode rest

/-- The low `width` bytes of a number, least significant first. -/
def encode : ℕ → ℕ → List UInt8
  | 0, _ => []
  | width + 1, n => UInt8.ofNat (n % 256) :: encode width (n / 256)

/-- The variable `old` after the given bytes were stored over its first ones. -/
def overlay (old : ℕ) (got : List UInt8) : ℕ :=
  decode got + old / 256 ^ got.length * 256 ^ got.length

/-- An encoding has the bytes that are asked for. -/
@[simp] theorem length_encode (width n : ℕ) : (encode width n).length = width := by
  induction width generalizing n with
  | zero => rfl
  | succ width ih => simp [encode, ih]

/-- A byte list denotes a number below the bound that its width sets. -/
theorem decode_lt (bytes : List UInt8) : decode bytes < 256 ^ bytes.length := by
  induction bytes with
  | nil => simp [decode]
  | cons b rest ih =>
    have hb : b.toNat < 256 := b.toNat_lt
    rw [decode, List.length_cons, pow_succ]
    omega

/-- Decoding recovers the encoded number up to the width. -/
theorem decode_encode (width n : ℕ) : decode (encode width n) = n % 256 ^ width := by
  induction width generalizing n with
  | zero => simp [encode, decode, Nat.mod_one]
  | succ width ih =>
    have hbyte : (UInt8.ofNat (n % 256)).toNat = n % 256 := by
      rw [UInt8.toNat_ofNat']
      omega
    rw [encode, decode, ih, hbyte, pow_succ', Nat.mod_mul]

/-- A number that fits is what its encoding decodes to. -/
theorem decode_encode_of_lt {width n : ℕ} (h : n < 256 ^ width) : decode (encode width n) = n := by
  rw [decode_encode, Nat.mod_eq_of_lt h]

/-- An encoding can be cut after any number of bytes. -/
theorem encode_add (first second n : ℕ) :
    encode (first + second) n = encode first n ++ encode second (n / 256 ^ first) := by
  induction first generalizing n with
  | zero => rw [Nat.zero_add, pow_zero, Nat.div_one, encode, List.nil_append]
  | succ first ih =>
    rw [Nat.succ_add, encode, ih, encode, List.cons_append, pow_succ', Nat.div_div_eq_div_mul]

/-- Only the number modulo the width is encoded. -/
theorem encode_mod (width n : ℕ) : encode width (n % 256 ^ width) = encode width n := by
  induction width generalizing n with
  | zero => rfl
  | succ width ih =>
    have hlow : n % 256 ^ (width + 1) % 256 = n % 256 :=
      Nat.mod_mod_of_dvd n ⟨256 ^ width, pow_succ' 256 width⟩
    have hhigh : n % 256 ^ (width + 1) / 256 = n / 256 % 256 ^ width := by
      rw [pow_succ', Nat.mod_mul_right_div_self]
    rw [encode, hlow, hhigh, ih, encode]

/-- Storing no byte leaves the variable as it was. -/
@[simp] theorem overlay_nil (old : ℕ) : overlay old [] = old := by
  simp [overlay, decode]

/-- Storing every byte of the variable replaces its value. -/
theorem overlay_of_full {old : ℕ} {got : List UInt8} (h : old < 256 ^ got.length) :
    overlay old got = decode got := by
  rw [overlay, Nat.div_eq_of_lt h, Nat.zero_mul, Nat.add_zero]

/-- A variable keeps its width under a partial store. -/
theorem overlay_lt {old width : ℕ} {got : List UInt8} (hold : old < 256 ^ width)
    (hlen : got.length ≤ width) : overlay old got < 256 ^ width := by
  obtain ⟨k, rfl⟩ := Nat.exists_eq_add_of_le hlen
  have hd := decode_lt got
  have hpos : 0 < 256 ^ got.length := by positivity
  have hq : old / 256 ^ got.length < 256 ^ k := by
    rw [Nat.div_lt_iff_lt_mul hpos, ← pow_add, Nat.add_comm]
    exact hold
  have hmul : (old / 256 ^ got.length + 1) * 256 ^ got.length ≤ 256 ^ k * 256 ^ got.length :=
    Nat.mul_le_mul_right _ hq
  rw [overlay, pow_add, Nat.mul_comm (256 ^ got.length)]
  rw [Nat.add_mul, Nat.one_mul] at hmul
  omega

/-- A partial store, byte by byte. -/
theorem overlay_cons (old : ℕ) (b : UInt8) (rest : List UInt8) :
    overlay old (b :: rest) = b.toNat + 256 * overlay (old / 256) rest := by
  simp only [overlay, decode, List.length_cons, pow_succ', Nat.div_div_eq_div_mul]
  ring

/-- The stored bytes are the low-order bytes of the variable. -/
theorem take_encode_overlay (old : ℕ) {width : ℕ} {got : List UInt8} (hlen : got.length ≤ width) :
    (encode width (overlay old got)).take got.length = got := by
  induction got generalizing old width with
  | nil => rfl
  | cons b rest ih =>
    obtain ⟨width, rfl⟩ : ∃ k, width = k + 1 := ⟨width - 1, by
      rw [List.length_cons] at hlen
      omega⟩
    have hb : b.toNat < 256 := b.toNat_lt
    have hmod : (b.toNat + 256 * overlay (old / 256) rest) % 256 = b.toNat := by omega
    have hdiv : (b.toNat + 256 * overlay (old / 256) rest) / 256 = overlay (old / 256) rest := by
      omega
    rw [overlay_cons, encode, hmod, hdiv, UInt8.ofNat_toNat, List.length_cons, List.take_succ_cons,
      ih _ (by simpa using hlen)]

/-- Storing its own low-order bytes leaves a variable as it was. -/
theorem overlay_of_prefix {width n : ℕ} {got : List UInt8} (h : got <+: encode width n) :
    overlay n got = n := by
  induction got generalizing width n with
  | nil => exact overlay_nil n
  | cons b rest ih =>
    cases width with
    | zero => cases List.prefix_nil.mp h
    | succ width =>
      rw [encode, List.cons_prefix_cons] at h
      obtain ⟨rfl, hrest⟩ := h
      have hbyte : (UInt8.ofNat (n % 256)).toNat = n % 256 := by
        rw [UInt8.toNat_ofNat']
        omega
      rw [overlay_cons, ih hrest, hbyte]
      omega

end LittleEndian
