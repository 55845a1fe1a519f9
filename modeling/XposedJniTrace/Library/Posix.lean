import XposedJniTrace.Library.LittleEndian

/-!
# Reading a regular file through a file descriptor

A regular file whose size a 64-bit `off_t` can hold, and the two calls a parser makes on a
descriptor of it. `lseek` fails, and leaves the offset alone, when the target is negative or
past the largest `off_t`; it succeeds beyond the end of the file. `read` transfers the bytes
that are there, so at and past the end it transfers none, and a variable that is read into
keeps its other bytes.
-/

namespace Posix

open LittleEndian

/-- The content of a regular file; its size fits in a signed 64-bit offset. -/
structure RegularFile where
  bytes : List UInt8
  size_lt : bytes.length < 2 ^ 63

/-- Where `lseek` counts from. -/
inductive Whence where
  | set
  | cur
  | fromEnd
  deriving DecidableEq

/-- A 64-bit unsigned value converted to `off_t`. -/
def offT (x : ℕ) : ℤ :=
  if x < 2 ^ 63 then x else (x : ℤ) - 2 ^ 64

namespace RegularFile

variable (f : RegularFile)

/-- The size of the file in bytes. -/
def size : ℕ := f.bytes.length

/-- The offset that `lseek` asks for. -/
def seekTarget (pos : ℕ) (offset : ℤ) : Whence → ℤ
  | .set => offset
  | .cur => pos + offset
  | .fromEnd => f.size + offset

/-- The descriptor's offset after `lseek`. -/
def lseek (pos : ℕ) (offset : ℤ) (whence : Whence) : ℕ :=
  let target := f.seekTarget pos offset whence
  if 0 ≤ target ∧ target < 2 ^ 63 then target.toNat else pos

/-- The bytes that `read` transfers. -/
def read (pos count : ℕ) : List UInt8 :=
  (f.bytes.drop pos).take count

/-- Read into a little-endian variable of the given width that holds `old`: its new value
and the new offset. -/
def readInto (pos width old : ℕ) : ℕ × ℕ :=
  (overlay old (f.read pos width), pos + (f.read pos width).length)

/-- The number stored in the file at an offset. -/
def field (pos width : ℕ) : ℕ :=
  decode (f.read pos width)

variable {f}

/-- A read gives what is asked for, as far as the file has it. -/
theorem length_read (pos count : ℕ) : (f.read pos count).length = min count (f.size - pos) := by
  simp [read, size]

/-- A read of bytes that are all there transfers all of them. -/
theorem length_read_of_le {pos count : ℕ} (h : pos + count ≤ f.size) :
    (f.read pos count).length = count := by
  rw [length_read]
  omega

/-- Nothing is transferred at or past the end of the file. -/
theorem read_of_size_le {pos : ℕ} (h : f.size ≤ pos) (count : ℕ) : f.read pos count = [] := by
  rw [read, List.drop_eq_nil_of_le h, List.take_nil]

/-- From an offset on, the file holds exactly the given bytes. -/
def Follows (f : RegularFile) (pos : ℕ) (rest : List UInt8) : Prop :=
  pos ≤ f.size ∧ f.bytes.drop pos = rest

/-- A split of the content names what follows its first part. -/
theorem follows_of_append {before rest : List UInt8} (hf : f.bytes = before ++ rest) :
    f.Follows before.length rest := by
  refine ⟨?_, ?_⟩
  · simp [size, hf]
  · rw [hf, List.drop_left]

namespace Follows

variable {pos : ℕ} {piece rest : List UInt8}

/-- What follows an offset reaches to the end of the file. -/
theorem length_eq (h : f.Follows pos rest) : pos + rest.length = f.size := by
  have hle : pos ≤ f.bytes.length := h.1
  rw [← h.2, List.length_drop, size]
  omega

/-- Past a piece follows what came after it. -/
theorem tail (h : f.Follows pos (piece ++ rest)) : f.Follows (pos + piece.length) rest := by
  have hlen := h.length_eq
  rw [List.length_append] at hlen
  refine ⟨by omega, ?_⟩
  rw [← List.drop_drop, h.2, List.drop_left]

/-- A read in front of a piece transfers it. -/
theorem read (h : f.Follows pos (piece ++ rest)) : f.read pos piece.length = piece := by
  rw [RegularFile.read, h.2, List.take_left]

/-- The number stored in front of an encoded number is that number. -/
theorem field {width n : ℕ} (h : f.Follows pos (encode width n ++ rest)) (hn : n < 256 ^ width) :
    f.field pos width = n := by
  have hread := h.read
  rw [length_encode] at hread
  rw [RegularFile.field, hread, decode_encode_of_lt hn]

end Follows

/-- A variable whose bytes are all in the file takes the stored number. -/
theorem readInto_of_le {pos width old : ℕ} (h : pos + width ≤ f.size) (hold : old < 256 ^ width) :
    f.readInto pos width old = (f.field pos width, pos + width) := by
  have hlen := length_read_of_le h
  rw [readInto, hlen, field, overlay_of_full (by rwa [hlen])]

/-- A variable read in front of an encoded number takes that number. -/
theorem Follows.readInto {pos width n : ℕ} {rest : List UInt8}
    (h : f.Follows pos (encode width n ++ rest)) (old : ℕ) (hn : n < 256 ^ width)
    (hold : old < 256 ^ width) :
    f.readInto pos width old = (n, pos + width) := by
  have hlen := h.length_eq
  rw [List.length_append, length_encode] at hlen
  rw [readInto_of_le (by omega) hold, h.field hn]

/-- Past an encoded number follows what came after it. -/
theorem Follows.skip {pos width n : ℕ} {rest : List UInt8}
    (h : f.Follows pos (encode width n ++ rest)) : f.Follows (pos + width) rest := by
  have htail := h.tail
  rwa [length_encode] at htail

/-- At the end of the file neither the variable nor the offset changes. -/
theorem readInto_of_size_le {pos : ℕ} (h : f.size ≤ pos) (width old : ℕ) :
    f.readInto pos width old = (old, pos) := by
  simp [readInto, read_of_size_le h]

/-- A variable keeps its width however many bytes are read into it. -/
theorem readInto_fst_lt (width : ℕ) {pos old : ℕ} (hold : old < 256 ^ width) :
    (f.readInto pos width old).1 < 256 ^ width := by
  refine overlay_lt hold ?_
  rw [length_read]
  omega

/-- The offset moves by the number of bytes transferred. -/
theorem readInto_offset (pos width old : ℕ) :
    (f.readInto pos width old).2 = pos + (f.read pos width).length := rfl

/-- A read moves on by what it has read. -/
theorem readInto_snd (pos width old : ℕ) :
    (f.readInto pos width old).2 = pos + min width (f.size - pos) := by
  rw [readInto_offset, length_read]

/-- A seek whose target is an offset goes there. -/
theorem lseek_of_eq {pos target : ℕ} {offset : ℤ} {whence : Whence}
    (h : f.seekTarget pos offset whence = target) (hlt : target < 2 ^ 63) :
    f.lseek pos offset whence = target := by
  have hint : (target : ℤ) < 2 ^ 63 := by exact_mod_cast hlt
  rw [lseek, h]
  simp only [Int.toNat_natCast, hint, and_true, Int.natCast_nonneg, if_true]

end RegularFile

end Posix
