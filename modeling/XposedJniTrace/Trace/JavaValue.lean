import XposedJniTrace.Library.VaList
import XposedJniTrace.Trace.Mylibc

/-!
# Primitive Java values

The primitive types with their values as bits, how a value is passed as a variadic argument, what
is read at a type from the word that was drawn, and the text that the static `toString` of the
boxing class answers, in the encoding of `GetStringUTFChars`. What Java does with floating-point
numbers is a parameter: their conversions, which are exact, and their texts, which are not empty and
of which those of zero and one are stated.
-/

namespace XposedJniTrace.Java

open Mylibc

/-- Text as it is written, in bytes. -/
abbrev Text := List UInt8

/-- The primitive types, in the order in which they are told apart. -/
inductive Prim where
  | boolean
  | byte
  | char
  | short
  | int
  | float
  | double
  | long
  deriving DecidableEq

/-- The number of bits of a value. -/
def Prim.width : Prim → ℕ
  | boolean => 1
  | byte => 8
  | char => 16
  | short => 16
  | int => 32
  | float => 32
  | double => 64
  | long => 64

/-- The values of a type, as bits. -/
abbrev Prim.Value (T : Prim) := BitVec T.width

/-- Where a value goes as a variadic argument. -/
def Prim.kind : Prim → Variadic.Kind
  | boolean | byte | char | short | int => .general
  | long => .wide
  | float | double => .floating

/-- The name of the type in Java. -/
def Prim.name : Prim → CString
  | boolean => c_str (ascii "boolean")
  | byte => c_str (ascii "byte")
  | char => c_str (ascii "char")
  | short => c_str (ascii "short")
  | int => c_str (ascii "int")
  | float => c_str (ascii "float")
  | double => c_str (ascii "double")
  | long => c_str (ascii "long")

/-- The class that boxes a type. -/
def Prim.boxName : Prim → CString
  | boolean => c_str (ascii "java.lang.Boolean")
  | byte => c_str (ascii "java.lang.Byte")
  | char => c_str (ascii "java.lang.Character")
  | short => c_str (ascii "java.lang.Short")
  | int => c_str (ascii "java.lang.Integer")
  | float => c_str (ascii "java.lang.Float")
  | double => c_str (ascii "java.lang.Double")
  | long => c_str (ascii "java.lang.Long")

/-- The bits of a float that is no number. -/
def isNaN (f : BitVec 32) : Prop := 0x7f800000 < f.toNat % 2 ^ 31

/-- Floating-point numbers: a float is promoted when it is passed, and narrowed when it is read. -/
structure Floats where
  promote : BitVec 32 → ℕ
  demote : ℕ → BitVec 32
  demote_promote : ∀ f, ¬ isNaN f → demote (promote f) = f
  floatText : BitVec 32 → Text
  doubleText : BitVec 64 → Text
  floatText_ne_nil : ∀ f, floatText f ≠ []
  doubleText_ne_nil : ∀ d, doubleText d ≠ []
  floatText_zero : floatText 0 = ascii "0.0"
  floatText_one : floatText 0x3f800000 = ascii "1.0"
  doubleText_zero : doubleText 0 = ascii "0.0"
  doubleText_one : doubleText 0x3ff0000000000000 = ascii "1.0"

/-- The bits that are passed for a value: integers of less than 32 bits are promoted to `int`. -/
def Prim.promote (floats : Floats) (T : Prim) (v : T.Value) : ℕ :=
  match T, v with
  | boolean, v => v.toNat
  | byte, v => (v.signExtend 32).toNat
  | char, v => v.toNat
  | short, v => (v.signExtend 32).toNat
  | int, v => v.toNat
  | float, v => floats.promote v
  | double, v => v.toNat
  | long, v => v.toNat

/-- The value that is read at a type from the word that `va_arg` yields; a `jboolean` is its low
byte. -/
def Prim.read (floats : Floats) (T : Prim) (w : ℕ) : T.Value :=
  match T with
  | boolean => if w % 256 = 0 then 0#1 else 1#1
  | byte => BitVec.ofNat 8 w
  | char => BitVec.ofNat 16 w
  | short => BitVec.ofNat 16 w
  | int => BitVec.ofNat 32 w
  | float => floats.demote w
  | double => BitVec.ofNat 64 w
  | long => BitVec.ofNat 64 w

/-- Decimal digits with a sign. -/
def decimal (n : ℤ) : Text :=
  (if n < 0 then [45] else []) ++ (Nat.toDigits 10 n.natAbs).map fun c => UInt8.ofNat c.toNat

/-- One UTF-16 unit in the modified encoding, where zero takes two bytes. -/
def modifiedUtf8 (c : ℕ) : Text :=
  if 0 < c ∧ c < 0x80 then [UInt8.ofNat c]
  else if c < 0x800 then [UInt8.ofNat (0xc0 + c / 64), UInt8.ofNat (0x80 + c % 64)]
  else [UInt8.ofNat (0xe0 + c / 4096), UInt8.ofNat (0x80 + c / 64 % 64),
    UInt8.ofNat (0x80 + c % 64)]

/-- The text that the static `toString` of the boxing class answers. -/
def Prim.text (floats : Floats) (T : Prim) (v : T.Value) : Text :=
  match T, v with
  | boolean, v => if v.toNat = 0 then ascii "false" else ascii "true"
  | byte, v => decimal v.toInt
  | char, v => modifiedUtf8 v.toNat
  | short, v => decimal v.toInt
  | int, v => decimal v.toInt
  | float, v => floats.floatText v
  | double, v => floats.doubleText v
  | long, v => decimal v.toInt

variable {floats : Floats}

/-- A number is written with a digit at least. -/
theorem decimal_ne_nil (n : ℤ) : decimal n ≠ [] := by
  intro h
  have hdigits := (List.append_eq_nil_iff.mp h).2
  rw [List.map_eq_nil_iff] at hdigits
  exact Nat.toDigits_ne_nil hdigits

/-- The text of a value is not empty. -/
theorem text_ne_nil {T : Prim} (v : T.Value) : T.text floats v ≠ [] := by
  cases T with
  | boolean =>
    change (if BitVec.toNat v = 0 then ascii "false" else ascii "true") ≠ []
    split_ifs <;> decide +kernel
  | byte => exact decimal_ne_nil _
  | char =>
    change modifiedUtf8 (BitVec.toNat v) ≠ []
    unfold modifiedUtf8
    split_ifs <;> exact List.cons_ne_nil _ _
  | short => exact decimal_ne_nil _
  | int => exact decimal_ne_nil _
  | float => exact floats.floatText_ne_nil _
  | double => exact floats.doubleText_ne_nil _
  | long => exact decimal_ne_nil _

/-- The characters of a number's digits are those of the digits. -/
theorem byte_of_digit {n : ℕ} {c : Char} (h : c ∈ Nat.toDigits 10 n) :
    48 ≤ c.toNat ∧ c.toNat ≤ 57 := by
  have hdigit := Nat.isDigit_of_mem_toDigits (by decide) (by decide) h
  simp only [Char.isDigit, Bool.and_eq_true, decide_eq_true_eq] at hdigit
  exact hdigit

/-- A natural number is known from its digits. -/
theorem digits_injective {n m : ℕ}
    (h : (Nat.toDigits 10 n).map (fun c => UInt8.ofNat c.toNat) =
      (Nat.toDigits 10 m).map fun c => UInt8.ofNat c.toNat) : n = m := by
  have hback (k : ℕ) : ((Nat.toDigits 10 k).map fun c => UInt8.ofNat c.toNat).map
      (fun b => Char.ofNat b.toNat) = Nat.toDigits 10 k := by
    rw [List.map_map]
    refine (List.map_congr_left fun c hc => ?_).trans (List.map_id _)
    obtain ⟨-, hle⟩ := byte_of_digit hc
    have hbyte : (UInt8.ofNat c.toNat).toNat = c.toNat := by
      rw [UInt8.toNat_ofNat']
      omega
    change Char.ofNat (UInt8.ofNat c.toNat).toNat = c
    rw [hbyte, Char.ofNat_toNat]
  have hdigits := congrArg (List.map fun b => Char.ofNat b.toNat) h
  rw [hback, hback] at hdigits
  rw [← Nat.ofDigitChars_ten_toDigits (n := n), hdigits, Nat.ofDigitChars_ten_toDigits]

/-- A number is told by its decimal digits and its sign. -/
theorem decimal_injective {n m : ℤ} (h : decimal n = decimal m) : n = m := by
  have hsign {k : ℕ} {rest : List UInt8}
      (h : (45 : UInt8) :: rest = (Nat.toDigits 10 k).map fun c => UInt8.ofNat c.toNat) :
        False := by
    have hmem : (45 : UInt8) ∈ (Nat.toDigits 10 k).map fun c => UInt8.ofNat c.toNat :=
      h ▸ List.mem_cons_self
    obtain ⟨c, hc, hbyte⟩ := List.mem_map.mp hmem
    obtain ⟨hge, hle⟩ := byte_of_digit hc
    have hnat := congrArg UInt8.toNat hbyte
    rw [UInt8.toNat_ofNat'] at hnat
    change c.toNat % 2 ^ 8 = 45 at hnat
    omega
  rw [decimal, decimal] at h
  split_ifs at h with hn hm hm
  · have habs := digits_injective (List.cons.inj h).2
    omega
  · exact (hsign h).elim
  · exact (hsign h.symm).elim
  · have habs := digits_injective h
    omega

/-- A unit is told by its encoding, whose bytes hold its bits. -/
theorem modifiedUtf8_injective {c d : ℕ} (hc : c < 0x10000) (hd : d < 0x10000)
    (h : modifiedUtf8 c = modifiedUtf8 d) : c = d := by
  have hlength := congrArg List.length h
  have hbytes := congrArg (List.map UInt8.toNat) h
  rw [modifiedUtf8, modifiedUtf8] at hlength hbytes
  split_ifs at hlength hbytes <;> simp at hlength hbytes <;> omega

/-- A value that is no floating-point number is told by its text. -/
theorem text_injective {T : Prim} (hT : T.kind ≠ .floating) {v w : T.Value}
    (h : T.text floats v = T.text floats w) : v = w := by
  cases T with
  | boolean =>
    have hv : BitVec.toNat v < 2 := BitVec.isLt v
    have hw : BitVec.toNat w < 2 := BitVec.isLt w
    change (if BitVec.toNat v = 0 then ascii "false" else ascii "true") =
      if BitVec.toNat w = 0 then ascii "false" else ascii "true" at h
    apply BitVec.eq_of_toNat_eq
    split_ifs at h with hzero hzero' hzero'
    · exact hzero.trans hzero'.symm
    · exact absurd h (by decide)
    · exact absurd h (by decide)
    · omega
  | char => exact BitVec.eq_of_toNat_eq (modifiedUtf8_injective (BitVec.isLt v) (BitVec.isLt w) h)
  | float => exact absurd rfl hT
  | double => exact absurd rfl hT
  | byte => exact BitVec.eq_of_toInt_eq (decimal_injective h)
  | short => exact BitVec.eq_of_toInt_eq (decimal_injective h)
  | int => exact BitVec.eq_of_toInt_eq (decimal_injective h)
  | long => exact BitVec.eq_of_toInt_eq (decimal_injective h)

/-- The low bits of a word do not depend on the bits above 32. -/
theorem ofNat_of_mod {n w m : ℕ} (hn : n ≤ 32) (h : w % 2 ^ 32 = m) :
    BitVec.ofNat n w = BitVec.ofNat n m := by
  apply BitVec.eq_of_toNat_eq
  rw [BitVec.toNat_ofNat, BitVec.toNat_ofNat, ← h, Nat.mod_mod_of_dvd _ (Nat.pow_dvd_pow 2 hn)]

/-- The sign extension of a number has its bits at the bottom. -/
theorem ofNat_signExtend {n : ℕ} (hn : n ≤ 32) (v : BitVec n) :
    BitVec.ofNat n (v.signExtend 32).toNat = v := by
  rw [BitVec.ofNat_toNat]
  ext i hi
  rw [BitVec.getElem_setWidth, BitVec.getLsbD_signExtend, if_pos hi, BitVec.getLsbD_eq_getElem hi]
  simp [Nat.lt_of_lt_of_le hi hn]

/-- A value is known from its number. -/
theorem ofNat_toNat {n : ℕ} (v : BitVec n) : BitVec.ofNat n v.toNat = v := by
  rw [BitVec.ofNat_toNat, BitVec.setWidth_eq]

/-- An integer of at most 32 bits is read back from a word with its promoted bits, whatever the
bits above them. -/
theorem read_of_general {T : Prim} (h : T.kind = .general) {v : T.Value} {w : ℕ}
    (hw : w % 2 ^ 32 = T.promote floats v) : T.read floats w = v := by
  cases T with
  | boolean =>
    change w % 2 ^ 32 = BitVec.toNat v at hw
    change (if w % 256 = 0 then 0#1 else 1#1) = v
    have hv : BitVec.toNat v < 2 := BitVec.isLt v
    apply BitVec.eq_of_toNat_eq
    split_ifs with hzero
    · change 0 = BitVec.toNat v
      omega
    · change 1 = BitVec.toNat v
      omega
  | byte => exact (ofNat_of_mod (by decide) hw).trans (ofNat_signExtend (by decide) v)
  | char => exact (ofNat_of_mod (by decide) hw).trans (ofNat_toNat v)
  | short => exact (ofNat_of_mod (by decide) hw).trans (ofNat_signExtend (by decide) v)
  | int => exact (ofNat_of_mod (by decide) hw).trans (ofNat_toNat v)
  | _ => cases h

/-- What is passed as a word of its own has 32 bits after promotion. -/
theorem promote_lt {T : Prim} (h : T.kind = .general) (v : T.Value) :
    T.promote floats v < 2 ^ 32 := by
  cases T with
  | boolean => exact v.isLt.trans (by decide)
  | byte => exact (BitVec.signExtend 32 v).isLt
  | char => exact v.isLt.trans (by decide)
  | short => exact (BitVec.signExtend 32 v).isLt
  | int => exact v.isLt
  | _ => cases h

/-- A value of two words is read back as it was passed. -/
theorem read_of_wide {T : Prim} (h : T.kind = .wide) (v : T.Value) :
    T.read floats (T.promote floats v) = v := by
  cases T with
  | long => exact ofNat_toNat v
  | _ => cases h

/-- At a type that is not passed as a pointer is, two words are read as different texts. -/
theorem text_differs {T : Prim} (h : T.kind ≠ .general) :
    ∃ x y, T.text floats (T.read floats x) ≠ T.text floats (T.read floats y) := by
  cases T with
  | float =>
    refine ⟨floats.promote 0, floats.promote 0x3f800000, ?_⟩
    change floats.floatText (floats.demote _) ≠ floats.floatText (floats.demote _)
    rw [floats.demote_promote 0 (by unfold isNaN; decide),
      floats.demote_promote 0x3f800000 (by unfold isNaN; decide), floats.floatText_zero,
        floats.floatText_one]
    decide +kernel
  | double =>
    refine ⟨0, 0x3ff0000000000000, ?_⟩
    change floats.doubleText 0 ≠ floats.doubleText 0x3ff0000000000000
    rw [floats.doubleText_zero, floats.doubleText_one]
    decide +kernel
  | long =>
    refine ⟨0, 1, ?_⟩
    change decimal (BitVec.ofNat 64 0).toInt ≠ decimal (BitVec.ofNat 64 1).toInt
    decide +kernel
  | _ => exact absurd rfl h

end XposedJniTrace.Java
