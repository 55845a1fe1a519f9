import XposedJniTrace.Library.Loop
import XposedJniTrace.Sec.Md5

/-!
# Model of `Md5Utils`

The class of `sec/Md5Utils.cpp`, which the modules `JniTrace` and `il2cppTrace` hold in
identical copies: the 64 calls of `transform` on registers taken by reference, the buffering
of `update` and the padding of `finalize`. All of `size_type` and `uint4` is arithmetic modulo
`2^32`, so that the test `i + blocksize <= length` of the block loop can wrap; the loop is run
with a budget. The bytes that `&input[i]` points at are a list, which callers give as long as the
length they pass. The local array `x` of `transform` is zeroized at its end and never read
again, which leaves no trace here.
-/

namespace XposedJniTrace

namespace Md5Utils

/-- The registers of `transform`, as its calls name them. -/
inductive Reg where
  | a
  | b
  | c
  | d

/-- The value of a register. -/
def Reg.get (r : Md5.State) : Reg → UInt32
  | a => r.a
  | b => r.b
  | c => r.c
  | d => r.d

/-- The registers after one has been assigned. -/
def Reg.set (r : Md5.State) (v : UInt32) : Reg → Md5.State
  | a => { r with a := v }
  | b => { r with b := v }
  | c => { r with c := v }
  | d => { r with d := v }

/-- The first rotation of round 1. -/
def S11 : UInt32 := 7
/-- The second rotation of round 1. -/
def S12 : UInt32 := 12
/-- The third rotation of round 1. -/
def S13 : UInt32 := 17
/-- The fourth rotation of round 1. -/
def S14 : UInt32 := 22
/-- The first rotation of round 2. -/
def S21 : UInt32 := 5
/-- The second rotation of round 2. -/
def S22 : UInt32 := 9
/-- The third rotation of round 2. -/
def S23 : UInt32 := 14
/-- The fourth rotation of round 2. -/
def S24 : UInt32 := 20
/-- The first rotation of round 3. -/
def S31 : UInt32 := 4
/-- The second rotation of round 3. -/
def S32 : UInt32 := 11
/-- The third rotation of round 3. -/
def S33 : UInt32 := 16
/-- The fourth rotation of round 3. -/
def S34 : UInt32 := 23
/-- The first rotation of round 4. -/
def S41 : UInt32 := 6
/-- The second rotation of round 4. -/
def S42 : UInt32 := 10
/-- The third rotation of round 4. -/
def S43 : UInt32 := 15
/-- The fourth rotation of round 4. -/
def S44 : UInt32 := 21

/-- The function of round 1. -/
def F (x y z : UInt32) : UInt32 := x &&& y ||| ~~~x &&& z

/-- The function of round 2. -/
def G (x y z : UInt32) : UInt32 := x &&& z ||| y &&& ~~~z

/-- The function of round 3. -/
def H (x y z : UInt32) : UInt32 := x ^^^ y ^^^ z

/-- The function of round 4. -/
def I (x y z : UInt32) : UInt32 := y ^^^ (x ||| ~~~z)

/-- The rotation as the program writes it, with two shifts. -/
def rotate_left (x n : UInt32) : UInt32 := (x <<< n) ||| (x >>> (32 - n))

/-- The body that `FF`, `GG`, `HH` and `II` share: the first register is passed by reference. -/
def roundStep (f : UInt32 → UInt32 → UInt32 → UInt32) (ra rb rc rd : Reg) (x s ac : UInt32)
    (r : Md5.State) : Md5.State :=
  ra.set r (rotate_left (ra.get r + f (rb.get r) (rc.get r) (rd.get r) + x + ac) s + rb.get r)

/-- A step of round 1. -/
def FF := roundStep F

/-- A step of round 2. -/
def GG := roundStep G

/-- A step of round 3. -/
def HH := roundStep H

/-- A step of round 4. -/
def II := roundStep I

/-- The word that `decode` stores at an index. -/
def decodeWord (input : List UInt8) (i : ℕ) : UInt32 :=
  (input.getD (4 * i) 0).toUInt32 ||| (input.getD (4 * i + 1) 0).toUInt32 <<< 8
    ||| (input.getD (4 * i + 2) 0).toUInt32 <<< 16 ||| (input.getD (4 * i + 3) 0).toUInt32 <<< 24

/-- The words of the first `len` bytes, each from four bytes with the lowest first. -/
def decode (input : List UInt8) (len : ℕ) : List UInt32 :=
  (List.range (len / 4)).map (decodeWord input)

/-- The four bytes that `encode` stores for a word. -/
def encodeWord (w : UInt32) : List UInt8 :=
  [(w &&& 0xff).toUInt8, ((w >>> 8) &&& 0xff).toUInt8, ((w >>> 16) &&& 0xff).toUInt8,
    ((w >>> 24) &&& 0xff).toUInt8]

/-- The whole array is encoded: every call passes four times its length. -/
def encode (input : List UInt32) : List UInt8 :=
  input.flatMap encodeWord

/-- Round 1 of `transform`. -/
def round1 (x : ℕ → UInt32) (r : Md5.State) : Md5.State := r
  |> FF .a .b .c .d (x 0) S11 0xd76aa478
  |> FF .d .a .b .c (x 1) S12 0xe8c7b756
  |> FF .c .d .a .b (x 2) S13 0x242070db
  |> FF .b .c .d .a (x 3) S14 0xc1bdceee
  |> FF .a .b .c .d (x 4) S11 0xf57c0faf
  |> FF .d .a .b .c (x 5) S12 0x4787c62a
  |> FF .c .d .a .b (x 6) S13 0xa8304613
  |> FF .b .c .d .a (x 7) S14 0xfd469501
  |> FF .a .b .c .d (x 8) S11 0x698098d8
  |> FF .d .a .b .c (x 9) S12 0x8b44f7af
  |> FF .c .d .a .b (x 10) S13 0xffff5bb1
  |> FF .b .c .d .a (x 11) S14 0x895cd7be
  |> FF .a .b .c .d (x 12) S11 0x6b901122
  |> FF .d .a .b .c (x 13) S12 0xfd987193
  |> FF .c .d .a .b (x 14) S13 0xa679438e
  |> FF .b .c .d .a (x 15) S14 0x49b40821

/-- Round 2 of `transform`. -/
def round2 (x : ℕ → UInt32) (r : Md5.State) : Md5.State := r
  |> GG .a .b .c .d (x 1) S21 0xf61e2562
  |> GG .d .a .b .c (x 6) S22 0xc040b340
  |> GG .c .d .a .b (x 11) S23 0x265e5a51
  |> GG .b .c .d .a (x 0) S24 0xe9b6c7aa
  |> GG .a .b .c .d (x 5) S21 0xd62f105d
  |> GG .d .a .b .c (x 10) S22 0x2441453
  |> GG .c .d .a .b (x 15) S23 0xd8a1e681
  |> GG .b .c .d .a (x 4) S24 0xe7d3fbc8
  |> GG .a .b .c .d (x 9) S21 0x21e1cde6
  |> GG .d .a .b .c (x 14) S22 0xc33707d6
  |> GG .c .d .a .b (x 3) S23 0xf4d50d87
  |> GG .b .c .d .a (x 8) S24 0x455a14ed
  |> GG .a .b .c .d (x 13) S21 0xa9e3e905
  |> GG .d .a .b .c (x 2) S22 0xfcefa3f8
  |> GG .c .d .a .b (x 7) S23 0x676f02d9
  |> GG .b .c .d .a (x 12) S24 0x8d2a4c8a

/-- Round 3 of `transform`. -/
def round3 (x : ℕ → UInt32) (r : Md5.State) : Md5.State := r
  |> HH .a .b .c .d (x 5) S31 0xfffa3942
  |> HH .d .a .b .c (x 8) S32 0x8771f681
  |> HH .c .d .a .b (x 11) S33 0x6d9d6122
  |> HH .b .c .d .a (x 14) S34 0xfde5380c
  |> HH .a .b .c .d (x 1) S31 0xa4beea44
  |> HH .d .a .b .c (x 4) S32 0x4bdecfa9
  |> HH .c .d .a .b (x 7) S33 0xf6bb4b60
  |> HH .b .c .d .a (x 10) S34 0xbebfbc70
  |> HH .a .b .c .d (x 13) S31 0x289b7ec6
  |> HH .d .a .b .c (x 0) S32 0xeaa127fa
  |> HH .c .d .a .b (x 3) S33 0xd4ef3085
  |> HH .b .c .d .a (x 6) S34 0x4881d05
  |> HH .a .b .c .d (x 9) S31 0xd9d4d039
  |> HH .d .a .b .c (x 12) S32 0xe6db99e5
  |> HH .c .d .a .b (x 15) S33 0x1fa27cf8
  |> HH .b .c .d .a (x 2) S34 0xc4ac5665

/-- Round 4 of `transform`. -/
def round4 (x : ℕ → UInt32) (r : Md5.State) : Md5.State := r
  |> II .a .b .c .d (x 0) S41 0xf4292244
  |> II .d .a .b .c (x 7) S42 0x432aff97
  |> II .c .d .a .b (x 14) S43 0xab9423a7
  |> II .b .c .d .a (x 5) S44 0xfc93a039
  |> II .a .b .c .d (x 12) S41 0x655b59c3
  |> II .d .a .b .c (x 3) S42 0x8f0ccc92
  |> II .c .d .a .b (x 10) S43 0xffeff47d
  |> II .b .c .d .a (x 1) S44 0x85845dd1
  |> II .a .b .c .d (x 8) S41 0x6fa87e4f
  |> II .d .a .b .c (x 15) S42 0xfe2ce6e0
  |> II .c .d .a .b (x 6) S43 0xa3014314
  |> II .b .c .d .a (x 13) S44 0x4e0811a1
  |> II .a .b .c .d (x 4) S41 0xf7537e82
  |> II .d .a .b .c (x 11) S42 0xbd3af235
  |> II .c .d .a .b (x 2) S43 0x2ad7d2bb
  |> II .b .c .d .a (x 9) S44 0xeb86d391

/-- Apply one block: the first 64 bytes that the pointer leads to. -/
def transform (state : Md5.State) (block : List UInt8) : Md5.State :=
  let words := decode block 64
  let x := fun k => words.getD k 0
  let r := state |> round1 x |> round2 x |> round3 x |> round4 x
  ⟨state.a + r.a, state.b + r.b, state.c + r.c, state.d + r.d⟩

/-- The 64 bytes that did not fit in the last block. -/
structure Buffer where
  bytes : List UInt8
  length_eq : bytes.length = 64

/-- Copy bytes into the buffer from an index on. -/
def Buffer.memcpy (buffer : Buffer) (index : ℕ) (src : List UInt8) : Buffer where
  bytes := (buffer.bytes.take index ++ src ++ buffer.bytes.drop (index + src.length)).take 64
  length_eq := by
    simp only [List.length_take, List.length_append, List.length_drop, buffer.length_eq]
    omega

/-- A buffer of zeros. -/
def Buffer.zero : Buffer where
  bytes := List.replicate 64 0
  length_eq := List.length_replicate

end Md5Utils

/-- An object of the class. -/
structure Md5Utils where
  finalized : Bool
  buffer : Md5Utils.Buffer
  /-- The low word of the number of bits. -/
  count0 : UInt32
  /-- The high word of the number of bits. -/
  count1 : UInt32
  state : Md5.State
  digest : List UInt8

namespace Md5Utils

/-- `init` on an object whose memory holds anything; `buffer` and `digest` stay as they are. -/
def init (md : Md5Utils) : Md5Utils :=
  { md with
    finalized := false
    count0 := 0
    count1 := 0
    state := ⟨0x67452301, 0xefcdab89, 0x98badcfe, 0x10325476⟩ }

/-- One iteration of `for (i = firstpart; i + blocksize <= length; i += blocksize)`. -/
def blockBody (input : List UInt8) (length : UInt32) :
    UInt32 × Md5.State → (UInt32 × Md5.State) ⊕ (UInt32 × Md5.State)
  | (i, state) =>
    if i + 64 ≤ length then .inl (i + 64, transform state (input.drop i.toNat))
    else .inr (i, state)

/-- The bit counter after `length` more bytes, with the carry into its high word. -/
def addCount (count0 count1 length : UInt32) : UInt32 × UInt32 :=
  let low := count0 + (length <<< 3)
  let high := if low < (length <<< 3) then count1 + 1 else count1
  (low, high + (length >>> 29))

/-- `update`, the block loop within a budget of iterations. -/
def update (fuel : ℕ) (input : List UInt8) (length : UInt32) (md : Md5Utils) : Option Md5Utils :=
  let index := md.count0 / 8 % 64
  let count := addCount md.count0 md.count1 length
  let firstpart := 64 - index
  let md := { md with count0 := count.1, count1 := count.2 }
  if length ≥ firstpart then do
    -- fill the buffer, transform it, and then whole blocks straight from the input
    let buffer := md.buffer.memcpy index.toNat (input.take firstpart.toNat)
    let state := transform md.state buffer.bytes
    let (i, state) ← Loop.run (blockBody input length) fuel (firstpart, state)
    let rest := (input.drop i.toNat).take (length - i).toNat
    some { md with buffer := buffer.memcpy 0 rest, state := state }
  else
    some { md with buffer := md.buffer.memcpy index.toNat (input.take length.toNat) }

/-- The static padding block of `finalize`. -/
def padding : List UInt8 :=
  0x80 :: List.replicate 63 0

/-- The padding and the length are appended once, and the state becomes the digest. -/
def finalize (fuel : ℕ) (md : Md5Utils) : Option Md5Utils :=
  if !md.finalized then do
    let bits := encode [md.count0, md.count1]
    -- pad out to 56 mod 64, then append the length before padding
    let index := md.count0 / 8 % 64
    let padLen := if index < 56 then 56 - index else 120 - index
    let md ← update fuel padding padLen md
    let md ← update fuel bits 8 md
    some { md with
      digest := encode [md.state.a, md.state.b, md.state.c, md.state.d]
      buffer := Buffer.zero
      count0 := 0
      count1 := 0
      finalized := true }
  else
    some md

/-- `sprintf` of one byte with `%02x`. -/
def sprintf02x (b : UInt8) : List Char :=
  let digits := Nat.toDigits 16 b.toNat
  List.replicate (2 - digits.length) '0' ++ digits

/-- The digest in hexadecimal; empty while it is not finalized. -/
def hexdigest (md : Md5Utils) : List Char :=
  if !md.finalized then []
  else md.digest.flatMap sprintf02x

/-- A call on an object: `update` of a chunk with its own length, or `finalize`. -/
inductive Call where
  | update (chunk : List UInt8)
  | finalize

/-- One call, within a budget for its loops. -/
def Call.run (fuel : ℕ) (md : Md5Utils) : Call → Option Md5Utils
  | .update chunk => Md5Utils.update fuel chunk (UInt32.ofNat chunk.length) md
  | .finalize => Md5Utils.finalize fuel md

/-- Calls in their order, each within the budget. -/
def runCalls (fuel : ℕ) : List Call → Md5Utils → Option Md5Utils
  | [], md => some md
  | call :: rest, md => (call.run fuel md).bind (runCalls fuel rest)

/-- The calls all return, and leave the object in the given state. -/
def Runs (calls : List Call) (md last : Md5Utils) : Prop :=
  ∃ fuel, runCalls fuel calls md = some last

/-- `MD5(str)`: construct from the text, which initialises, updates and finalizes, and print. -/
def MD5 (fuel : ℕ) (memory : Md5Utils) (str : List UInt8) : Option (List Char) :=
  (runCalls fuel [.update str, .finalize] memory.init).map hexdigest

end Md5Utils

end XposedJniTrace
