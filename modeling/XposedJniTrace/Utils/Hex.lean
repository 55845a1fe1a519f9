import Mathlib.Data.BitVec
import Mathlib.Data.List.GetD
import Mathlib.Data.List.Induction
import Mathlib.Data.Nat.Digits.Defs
import Mathlib.Tactic.Ring

/-!
# Hexadecimal digits

`binaryToHex` and `HexToInt` of `utils/stringUtils.cpp`, for a `char` that is signed or not and a
`size_t` of 32 or 64 bits. A `char` is promoted to an `int` before it is shifted, and the digits are
added up from the last one on: what is added is of type `size_t`, like the power of sixteen, and the
sum is an `int`.
-/

namespace XposedJniTrace.StringUtils

/-- Whether `char` is signed. -/
inductive CharType where
  | signed
  | unsigned
  deriving DecidableEq

/-- The width of `size_t`. -/
inductive SizeType where
  | bits32
  | bits64

/-- The number of its bits. -/
def SizeType.width : SizeType → ℕ
  | bits32 => 32
  | bits64 => 64

/-- A `char` as an `int`. -/
def CharType.promote : CharType → UInt8 → BitVec 32
  | signed, c => c.toBitVec.signExtend 32
  | unsigned, c => c.toBitVec.setWidth 32

/-- `0123456789ABCDEF` -/
def hex : List UInt8 :=
  [0x30, 0x31, 0x32, 0x33, 0x34, 0x35, 0x36, 0x37, 0x38, 0x39, 0x41, 0x42, 0x43, 0x44, 0x45, 0x46]

/-- Each byte as two characters, the upper half first. -/
def binaryToHex (char : CharType) (binaryStr : List UInt8) : List UInt8 :=
  binaryStr.flatMap fun c =>
    [hex.getD ((char.promote c).sshiftRight 4 &&& 0xf).toNat 0,
      hex.getD (char.promote c &&& 0xf).toNat 0]

/-- The character is a decimal digit. -/
def isdigit (c : UInt8) : Bool := 0x30 ≤ c ∧ c ≤ 0x39

/-- What a character of the string counts. -/
def digit (char : CharType) (c : UInt8) : BitVec 32 :=
  if isdigit c then char.promote c - 0x30 else char.promote c - 0x41 + 10

/-- The loop of `HexToInt`, down to the two characters of the prefix. -/
def HexToInt.loop (char : CharType) (size : SizeType) (indexstr : List UInt8) :
    ℕ → BitVec size.width → BitVec 32 → BitVec 32
  | 0, _, sum => sum
  | 1, _, sum => sum
  | i + 2, base, sum =>
    loop char size indexstr (i + 1) (base * 16)
      ((sum.signExtend size.width + (digit char (indexstr.getD (i + 2) 0)).signExtend
        size.width * base).setWidth
        32)

/-- The number that a string of hexadecimal digits stands for. -/
def HexToInt (char : CharType) (size : SizeType) (str : List UInt8) : ℤ :=
  let indexstr := 0x30 :: 0x78 :: str
  (HexToInt.loop char size indexstr (indexstr.length - 1) 1 0).toInt

/-- The number that the bytes are, the first the most significant. -/
def bigEndian (s : List UInt8) : ℕ := Nat.ofDigits 256 (s.reverse.map UInt8.toNat)

/-- `binaryToHex` and `HexToInt` agree. -/
structure HexAgrees (char : CharType) (size : SizeType) : Prop where
  decoded : ∀ s, HexToInt char size (binaryToHex char s) = (bigEndian s : ℤ).bmod (2 ^ 32)
  injective : ∀ s t, binaryToHex char s = binaryToHex char t → s = t

variable (char : CharType) (size : SizeType)

/-- The upper half of a byte is shifted down, and what its sign brings is masked. -/
theorem upper_toNat (c : UInt8) :
    ((char.promote c).sshiftRight 4 &&& 0xf).toNat = c.toNat / 16 := by
  have hsigned : ∀ b : BitVec 8,
      ((b.signExtend 32).sshiftRight 4 &&& 0xf).toNat = b.toNat / 16 := by
    decide +kernel
  have hunsigned : ∀ b : BitVec 8,
      ((b.setWidth 32).sshiftRight 4 &&& 0xf).toNat = b.toNat / 16 := by
    decide +kernel
  cases char with
  | signed => exact hsigned c.toBitVec
  | unsigned => exact hunsigned c.toBitVec

/-- The lower half of a byte, whether `char` is signed or not. -/
theorem lower_toNat (c : UInt8) : (char.promote c &&& 0xf).toNat = c.toNat % 16 := by
  have hsigned : ∀ b : BitVec 8, (b.signExtend 32 &&& 0xf).toNat = b.toNat % 16 := by decide +kernel
  have hunsigned : ∀ b : BitVec 8, (b.setWidth 32 &&& 0xf).toNat = b.toNat % 16 := by decide +kernel
  cases char with
  | signed => exact hsigned c.toBitVec
  | unsigned => exact hunsigned c.toBitVec

/-- Each of the sixteen digits counts what it stands for. -/
theorem digit_hex {n : ℕ} (h : n < 16) : digit char (hex.getD n 0) = BitVec.ofNat 32 n := by
  have hall : ∀ char : CharType, ∀ n ∈ List.range 16,
      digit char (hex.getD n 0) = BitVec.ofNat 32 n := by
    intro char
    cases char <;> decide
  exact hall char n (List.mem_range.mpr h)

/-- The sixteen digits are different. -/
theorem hex_injective {n m : ℕ} (hn : n < 16) (hm : m < 16)
    (h : hex.getD n 0 = hex.getD m 0) : n = m := by
  have heq : BitVec.ofNat 32 n = BitVec.ofNat 32 m := by
    rw [← digit_hex .signed hn, h, digit_hex _ hm]
  have htoNat := congrArg BitVec.toNat heq
  rw [BitVec.toNat_ofNat, BitVec.toNat_ofNat] at htoNat
  omega

/-- The first byte gives the first two characters. -/
theorem binaryToHex_cons (c : UInt8) (s : List UInt8) :
    binaryToHex char (c :: s) =
      hex.getD (c.toNat / 16) 0 :: hex.getD (c.toNat % 16) 0 :: binaryToHex char s := by
  rw [binaryToHex, List.flatMap_cons, upper_toNat, lower_toNat]
  rfl

/-- The bytes are known from their characters. -/
theorem binaryToHex_injective {s t : List UInt8}
    (h : binaryToHex char s = binaryToHex char t) : s = t := by
  induction s generalizing t with
  | nil =>
    cases t with
    | nil => rfl
    | cons b t =>
      rw [binaryToHex_cons] at h
      cases h
  | cons a s ih =>
    cases t with
    | nil =>
      rw [binaryToHex_cons] at h
      cases h
    | cons b t =>
      rw [binaryToHex_cons, binaryToHex_cons] at h
      obtain ⟨hupper, hrest⟩ := List.cons.inj h
      obtain ⟨hlower, htail⟩ := List.cons.inj hrest
      have ha := a.toNat_lt
      have hb := b.toNat_lt
      have hdiv : a.toNat / 16 = b.toNat / 16 := hex_injective (by omega) (by omega) hupper
      have hmod : a.toNat % 16 = b.toNat % 16 := hex_injective (by omega) (by omega) hlower
      have hab : a = b := UInt8.toNat_inj.mp (by omega)
      rw [hab, ih htail]

/-- What the characters count together, as an `int`. -/
def hexValue (str : List UInt8) : BitVec 32 := str.foldl (fun v c => v * 16 + digit char c) 0

/-- A character behind the others counts itself, and sixteen times the others. -/
theorem hexValue_concat (str : List UInt8) (c : UInt8) :
    hexValue char (str ++ [c]) = hexValue char str * 16 + digit char c :=
  List.foldl_concat _ _ _ _

/-- A `size_t` has the bits of an `int` -/
theorem SizeType.le_width : 32 ≤ size.width := by cases size <;> decide

/-- An `int` is in the lower 32 bits of its extension. -/
theorem setWidth_signExtend (x : BitVec 32) : (x.signExtend size.width).setWidth 32 = x := by
  apply BitVec.eq_of_getElem_eq
  intro i hi
  have hwide : i < size.width := Nat.lt_of_lt_of_le hi size.le_width
  rw [BitVec.getElem_setWidth, BitVec.getLsbD_signExtend, decide_eq_true hwide,
    Bool.true_and, if_pos hi, BitVec.getLsbD_eq_getElem hi]

/-- Of what is added to the sum, the lower 32 bits are added. -/
theorem setWidth_sum (sum d : BitVec 32) (base : BitVec size.width) :
    (sum.signExtend size.width + d.signExtend size.width * base).setWidth 32 =
      sum + d * base.setWidth 32 := by
  rw [BitVec.setWidth_add _ _ size.le_width, BitVec.setWidth_mul _ _ size.le_width,
    setWidth_signExtend, setWidth_signExtend]

/-- The power wraps as an `int` does. -/
theorem setWidth_power (base : BitVec size.width) :
    (base * 16).setWidth 32 = base.setWidth 32 * 16 := by
  rw [BitVec.setWidth_mul _ _ size.le_width]
  cases size <;> rfl

/-- The loop looks at no character behind the one that it starts from. -/
theorem loop_append (front rest : List UInt8) {i : ℕ} (hi : i < front.length)
    (base : BitVec size.width)
    (sum : BitVec 32) :
    HexToInt.loop char size (front ++ rest) i base sum =
      HexToInt.loop char size front i base sum := by
  induction i using Nat.strongRecOn generalizing base sum with
  | ind i ih =>
    match i with
    | 0 => rfl
    | 1 => rfl
    | i + 2 =>
      rw [HexToInt.loop, HexToInt.loop, List.getD_append _ _ _ _ hi]
      exact ih (i + 1) (Nat.lt_succ_self _) (Nat.lt_of_succ_lt hi) _ _

/-- The loop adds what the characters count, times the power that it starts from. -/
theorem loop_eq (str : List UInt8) (base : BitVec size.width) (sum : BitVec 32) :
    HexToInt.loop char size (0x30 :: 0x78 :: str) (str.length + 1) base sum =
      sum + hexValue char str * base.setWidth 32 := by
  induction str using List.reverseRecOn generalizing base sum with
  | nil =>
    rw [hexValue, List.foldl_nil, zero_mul, add_zero]
    rfl
  | append_singleton str c ih =>
    have hlast : (0x30 :: 0x78 :: str ++ [c]).getD (str.length + 2) 0 = c := by
      have hlength : str.length + 2 = (0x30 :: 0x78 :: str).length := rfl
      rw [hlength, List.getD_append_right _ _ _ _ (Nat.le_refl _), Nat.sub_self,
        List.getD_cons_zero]
    have hinside : str.length + 1 < (0x30 :: 0x78 :: str).length := Nat.lt_succ_self _
    have hfront : 0x30 :: 0x78 :: (str ++ [c]) = 0x30 :: 0x78 :: str ++ [c] := rfl
    rw [hfront, List.length_append, List.length_singleton, HexToInt.loop, hlast,
      loop_append char size _ _ hinside, ih, setWidth_sum, setWidth_power, hexValue_concat]
    ring

/-- The digits of a string of bytes count its number. -/
theorem hexValue_binaryToHex (s : List UInt8) :
    hexValue char (binaryToHex char s) = BitVec.ofNat 32 (bigEndian s) := by
  induction s using List.reverseRecOn with
  | nil => rfl
  | append_singleton s c ih =>
    have hc := c.toNat_lt
    have hdigits : binaryToHex char (s ++ [c]) =
        (binaryToHex char s ++ [hex.getD (c.toNat / 16) 0]) ++ [hex.getD (c.toNat % 16) 0] := by
      rw [binaryToHex, List.flatMap_append, List.append_assoc]
      exact congrArg (binaryToHex char s ++ ·) (binaryToHex_cons char c [])
    have hnumber : bigEndian (s ++ [c]) =
        (bigEndian s * 16 + c.toNat / 16) * 16 + c.toNat % 16 := by
      rw [bigEndian, List.reverse_concat, List.map_cons, Nat.ofDigits_cons, ← bigEndian]
      omega
    rw [hdigits, hexValue_concat, hexValue_concat, ih, digit_hex char (by omega),
      digit_hex char (by omega),
      hnumber, BitVec.ofNat_add, BitVec.ofNat_mul, BitVec.ofNat_add, BitVec.ofNat_mul]
    rfl

/-- What is decoded is the number of the bytes, in the range of an `int`, and no two strings are
encoded alike. -/
theorem hex_agrees : HexAgrees char size where
  decoded s := by
    have hloop := loop_eq char size (binaryToHex char s) 1 0
    rw [HexToInt, List.length_cons, List.length_cons, Nat.add_sub_cancel, hloop,
      hexValue_binaryToHex, ← BitVec.toInt_ofNat']
    have hone : (1 : BitVec size.width).setWidth 32 = 1 := by cases size <;> rfl
    rw [hone, mul_one, zero_add]
  injective s t h := binaryToHex_injective char h

end XposedJniTrace.StringUtils
