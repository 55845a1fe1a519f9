import XposedJniTrace.Library.BlockStream
import XposedJniTrace.Library.LittleEndian

/-!
# The MD5 message digest

The digest as its definition gives it, on whole messages: the message is padded with a one
bit, zeros and its length in bits, and every block of 64 bytes is compressed in 64 steps of
one shape, whose function, word, constant and rotation depend on the step's number. Words are
32-bit and little-endian; the length is taken modulo `2^64`.
-/

namespace XposedJniTrace.Md5

/-- The four words of the digest under construction. -/
structure State where
  a : UInt32
  b : UInt32
  c : UInt32
  d : UInt32
  deriving DecidableEq, Repr

/-- The auxiliary function of the first round. -/
def F (x y z : UInt32) : UInt32 := (x &&& y) ||| (~~~x &&& z)

/-- The auxiliary function of the second round. -/
def G (x y z : UInt32) : UInt32 := (x &&& z) ||| (y &&& ~~~z)

/-- The auxiliary function of the third round. -/
def H (x y z : UInt32) : UInt32 := x ^^^ y ^^^ z

/-- The auxiliary function of the fourth round. -/
def I (x y z : UInt32) : UInt32 := y ^^^ (x ||| ~~~z)

/-- The function of a step. -/
def roundFunction (i : ℕ) : UInt32 → UInt32 → UInt32 → UInt32 :=
  if i < 16 then F else if i < 32 then G else if i < 48 then H else I

/-- The number of the message word that a step adds. -/
def wordIndex (i : ℕ) : ℕ :=
  if i < 16 then i
  else if i < 32 then (5 * i + 1) % 16
  else if i < 48 then (3 * i + 5) % 16
  else 7 * i % 16

/-- The rotation of a step: four amounts for each round, used in turn. -/
def shift (i : ℕ) : ℕ :=
  ([[7, 12, 17, 22], [5, 9, 14, 20], [4, 11, 16, 23], [6, 10, 15, 21]].getD (i / 16) []).getD
    (i % 4) 0

/-- The constant of a step: the integer part of `2^32 * |sin (i + 1)|`. -/
def T : List UInt32 := [
  0xd76aa478, 0xe8c7b756, 0x242070db, 0xc1bdceee, 0xf57c0faf, 0x4787c62a, 0xa8304613, 0xfd469501,
  0x698098d8, 0x8b44f7af, 0xffff5bb1, 0x895cd7be, 0x6b901122, 0xfd987193, 0xa679438e, 0x49b40821,
  0xf61e2562, 0xc040b340, 0x265e5a51, 0xe9b6c7aa, 0xd62f105d, 0x02441453, 0xd8a1e681, 0xe7d3fbc8,
  0x21e1cde6, 0xc33707d6, 0xf4d50d87, 0x455a14ed, 0xa9e3e905, 0xfcefa3f8, 0x676f02d9, 0x8d2a4c8a,
  0xfffa3942, 0x8771f681, 0x6d9d6122, 0xfde5380c, 0xa4beea44, 0x4bdecfa9, 0xf6bb4b60, 0xbebfbc70,
  0x289b7ec6, 0xeaa127fa, 0xd4ef3085, 0x04881d05, 0xd9d4d039, 0xe6db99e5, 0x1fa27cf8, 0xc4ac5665,
  0xf4292244, 0x432aff97, 0xab9423a7, 0xfc93a039, 0x655b59c3, 0x8f0ccc92, 0xffeff47d, 0x85845dd1,
  0x6fa87e4f, 0xfe2ce6e0, 0xa3014314, 0x4e0811a1, 0xf7537e82, 0xbd3af235, 0x2ad7d2bb, 0xeb86d391]

/-- A word rotated to the left. -/
def rotl (x : UInt32) (n : ℕ) : UInt32 :=
  UInt32.ofBitVec (x.toBitVec.rotateLeft n)

/-- One step with everything that depends on its number given: the new word becomes `b` and the
others move on. -/
def stepWith (f : UInt32 → UInt32 → UInt32 → UInt32) (x : UInt32) (s : ℕ) (t : UInt32)
    (r : State) : State :=
  ⟨r.d, r.b + rotl (r.a + f r.b r.c r.d + x + t) s, r.b, r.c⟩

/-- The step of a number, on the words of a block. -/
def step (x : ℕ → UInt32) (r : State) (i : ℕ) : State :=
  stepWith (roundFunction i) (x (wordIndex i)) (shift i) (T.getD i 0) r

/-- The message word of a number, in a block. -/
def word (block : List UInt8) (k : ℕ) : UInt32 :=
  UInt32.ofNat (LittleEndian.decode ((block.drop (4 * k)).take 4))

/-- Compress one block into the state. -/
def compress (st : State) (block : List UInt8) : State :=
  let r := (List.range 64).foldl (step (word block)) st
  ⟨st.a + r.a, st.b + r.b, st.c + r.c, st.d + r.d⟩

/-- The state before the first block. -/
def initial : State :=
  ⟨0x67452301, 0xefcdab89, 0x98badcfe, 0x10325476⟩

/-- What is appended to a message of the given number of bytes. -/
def padding (len : ℕ) : List UInt8 :=
  0x80 :: List.replicate ((119 - len % 64) % 64) 0 ++ LittleEndian.encode 8 (8 * len)

/-- The sixteen bytes that the four words are output as. -/
def output (st : State) : List UInt8 :=
  [st.a, st.b, st.c, st.d].flatMap fun w => LittleEndian.encode 4 w.toNat

/-- The digest of a message. -/
def digest (msg : List UInt8) : List UInt8 :=
  output (BlockStream.absorb compress 64 initial (msg ++ padding msg.length))

/-- Lowercase hexadecimal digits. -/
def hexDigit (n : ℕ) : Char :=
  ['0', '1', '2', '3', '4', '5', '6', '7', '8', '9', 'a', 'b', 'c', 'd', 'e', 'f'].getD n '0'

/-- A byte string as lowercase hexadecimal digits, the high half of each byte first. -/
def hex (bytes : List UInt8) : List Char :=
  bytes.flatMap fun b => [hexDigit (b.toNat / 16), hexDigit (b.toNat % 16)]

/-- A digest has sixteen bytes. -/
theorem length_digest (msg : List UInt8) : (digest msg).length = 16 := by
  simp [digest, output, LittleEndian.length_encode]

/-- Every byte is written as two digits. -/
theorem length_hex (bytes : List UInt8) : (hex bytes).length = 2 * bytes.length := by
  induction bytes with
  | nil => rfl
  | cons b rest ih =>
    have hcons : hex (b :: rest) =
        [hexDigit (b.toNat / 16), hexDigit (b.toNat % 16)] ++ hex rest := rfl
    simp only [hcons, List.length_append, ih, List.length_cons, List.length_nil]
    omega

end XposedJniTrace.Md5
