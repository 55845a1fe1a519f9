import Mathlib.Data.List.GetD
import XposedJniTrace.Library.LittleEndian

/-!
# Byte memories

A memory as a function of the address, the bytes and words that it holds from an address on, and
what a write of bytes changes and leaves.
-/

namespace ByteMemory

/-- A memory of bytes. -/
abbrev Memory := ℕ → UInt8

/-- The bytes from an address on. -/
def read (mem : Memory) (a n : ℕ) : List UInt8 := (List.range n).map fun i => mem (a + i)

/-- The memory with bytes stored from an address on. -/
def write (mem : Memory) (a : ℕ) (bytes : List UInt8) : Memory := fun b =>
  if a ≤ b then bytes.getD (b - a) (mem b) else mem b

/-- The little-endian number of `n` bytes at an address. -/
def number (mem : Memory) (a n : ℕ) : ℕ := LittleEndian.decode (read mem a n)

/-- The memory holds the bytes from the address on. -/
def Holds (mem : Memory) (a : ℕ) (bytes : List UInt8) : Prop := read mem a bytes.length = bytes

/-- The bytes of words of 32 bits. -/
def bytesOf (words : List ℕ) : List UInt8 := words.flatMap (LittleEndian.encode 4)

/-- Two memories agree on `n` bytes from an address on. -/
def AgreeOn (mem mem' : Memory) (a n : ℕ) : Prop := ∀ b, a ≤ b → b < a + n → mem b = mem' b

variable {mem mem' : Memory} {a b n : ℕ} {bytes first second : List UInt8}

/-- As many bytes are read as are asked for. -/
@[simp] theorem length_read : (read mem a n).length = n := by
  simp [read]

/-- Bytes are read in two parts. -/
theorem read_add (first second : ℕ) :
    read mem a (first + second) = read mem a first ++ read mem (a + first) second := by
  rw [read, List.range_add, List.map_append, List.map_map]
  simp [read, Function.comp_def, Nat.add_assoc]

/-- The same bytes are read where the memories agree. -/
theorem read_congr (h : AgreeOn mem mem' a n) : read mem a n = read mem' a n := by
  apply List.map_congr_left
  intro i hi
  have hlt := List.mem_range.mp hi
  exact h (a + i) (Nat.le_add_right a i) (by omega)

/-- Memory holds no bytes anywhere. -/
theorem Holds.nil : Holds mem a [] := rfl

/-- Two runs of bytes are held one behind the other. -/
theorem holds_append :
    Holds mem a (first ++ second) ↔ Holds mem a first ∧ Holds mem (a + first.length) second := by
  rw [Holds, List.length_append, read_add]
  constructor
  · intro h
    exact List.append_inj h length_read
  · intro h
    rw [h.1, h.2]

/-- Where the memories agree, the same bytes are held. -/
theorem Holds.congr (h : Holds mem a bytes) (hagree : AgreeOn mem mem' a bytes.length) :
    Holds mem' a bytes := by
  rw [Holds, ← read_congr hagree]
  exact h

/-- A memory agrees with itself. -/
theorem AgreeOn.refl : AgreeOn mem mem a n := fun _ _ _ => rfl

/-- Memories agree with each other. -/
theorem AgreeOn.symm (h : AgreeOn mem mem' a n) : AgreeOn mem' mem a n := fun b hle hlt =>
  (h b hle hlt).symm

/-- Agreement is passed on from memory to memory. -/
theorem AgreeOn.trans {mem'' : Memory} (h : AgreeOn mem mem' a n) (h' : AgreeOn mem' mem'' a n) :
    AgreeOn mem mem'' a n := fun b hle hlt => (h b hle hlt).trans (h' b hle hlt)

/-- Memories that agree somewhere agree in any part of it. -/
theorem AgreeOn.mono (h : AgreeOn mem mem' a n) {m : ℕ} (hle : a ≤ b) (hlt : b + m ≤ a + n) :
    AgreeOn mem mem' b m := fun c hc hc' => h c (by omega) (by omega)

/-- A write leaves what is in front of it and behind it. -/
theorem write_outside (h : b < a ∨ a + bytes.length ≤ b) : write mem a bytes b = mem b := by
  unfold write
  split_ifs with hle
  · rw [List.getD_eq_default _ _ (by omega)]
  · rfl

/-- What is written is read. -/
theorem read_write : read (write mem a bytes) a bytes.length = bytes := by
  apply List.ext_getElem length_read
  intro i hi hi'
  simp [read, write, hi']

/-- What is written is held. -/
theorem holds_write : Holds (write mem a bytes) a bytes := read_write

/-- Bytes of another memory that are stored at their place. -/
theorem write_read_self (hle : a ≤ b) (hlt : b < a + n) :
    write mem a (read mem' a n) b = mem' b := by
  have hindex : b - a < (read mem' a n).length := by
    rw [length_read]
    omega
  have hb : a + (b - a) = b := by omega
  rw [write, if_pos hle, List.getD_eq_getElem _ _ hindex]
  simp [read, hb]

/-- A number of so many bytes is below their power. -/
theorem number_lt (mem : Memory) (a n : ℕ) : number mem a n < 256 ^ n := by
  have hlt := LittleEndian.decode_lt (read mem a n)
  rwa [length_read] at hlt

/-- The number of an encoding that is held is what was encoded. -/
theorem number_of_holds {width v : ℕ} (h : Holds mem a (LittleEndian.encode width v)) :
    number mem a width = v % 256 ^ width := by
  rw [Holds, LittleEndian.length_encode] at h
  rw [number, h, LittleEndian.decode_encode]

/-- A word has four bytes. -/
@[simp] theorem length_bytesOf (words : List ℕ) : (bytesOf words).length = 4 * words.length := by
  induction words with
  | nil => rfl
  | cons w words ih =>
    have hcons : bytesOf (w :: words) = LittleEndian.encode 4 w ++ bytesOf words := rfl
    rw [hcons, List.length_append, LittleEndian.length_encode, ih, List.length_cons]
    ring

/-- The bytes of two runs of words are those of the first and of the second. -/
theorem bytesOf_append (first second : List ℕ) :
    bytesOf (first ++ second) = bytesOf first ++ bytesOf second :=
  List.flatMap_append

/-- Two runs of words are held one behind the other. -/
theorem holds_bytesOf_append {first second : List ℕ} :
    Holds mem a (bytesOf (first ++ second)) ↔
      Holds mem a (bytesOf first) ∧ Holds mem (a + 4 * first.length) (bytesOf second) := by
  rw [bytesOf_append, holds_append, length_bytesOf]

/-- A word is held in front of the others. -/
theorem holds_bytesOf_cons {w : ℕ} {words : List ℕ} :
    Holds mem a (bytesOf (w :: words)) ↔
      Holds mem a (LittleEndian.encode 4 w) ∧ Holds mem (a + 4) (bytesOf words) := by
  have hcons : bytesOf (w :: words) = LittleEndian.encode 4 w ++ bytesOf words := rfl
  rw [hcons, holds_append, LittleEndian.length_encode]

/-- The first of the words that are held. -/
theorem number_of_holds_cons {w : ℕ} (hw : w < 2 ^ 32) {words : List ℕ}
    (h : Holds mem a (bytesOf (w :: words))) : number mem a 4 = w := by
  rw [number_of_holds (holds_bytesOf_cons.mp h).1]
  exact Nat.mod_eq_of_lt hw

/-- A number of eight bytes is held as two words. -/
theorem bytesOf_pair (v : ℕ) : bytesOf [v % 2 ^ 32, v / 2 ^ 32] = LittleEndian.encode 8 v := by
  have hlow : LittleEndian.encode 4 (v % 2 ^ 32) = LittleEndian.encode 4 v :=
    LittleEndian.encode_mod 4 v
  have hsplit : LittleEndian.encode 8 v = LittleEndian.encode 4 v ++
      LittleEndian.encode 4 (v / 2 ^ 32) :=
    LittleEndian.encode_add 4 4 v
  rw [hsplit, ← hlow]
  rfl

end ByteMemory
