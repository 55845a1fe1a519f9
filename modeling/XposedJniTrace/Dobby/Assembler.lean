import Mathlib.Tactic.Zify
import XposedJniTrace.Library.LiteralPool

/-!
# The assembler of Dobby

The macros of `include/utility_macro.h`, the encoders of `core/assembler/assembler-arm64.h` that
trampolines and relocated code are made with, and the labels of `core/assembler`. A buffer is a list
of words of 32 bits, as everything that is emitted has a multiple of four bytes; registers are given
by their numbers. A buffer with bound labels is code with a pool of literals.
-/

namespace XposedJniTrace.Dobby

open Arm64 LiteralPool WordFields

section Macros

/-- The macro `LeftShift`: the low `b` bits of `a`, shifted. -/
def LeftShift (a b c : ℕ) : ℕ := (a &&& 1 <<< b - 1) <<< c

/-- The macro `submask` -/
def submask (x : ℕ) : ℕ := 1 <<< (x + 1) - 1

/-- The macro `bits`: the bits from `st` to `fn` -/
def bits (obj st fn : ℕ) : ℕ := obj >>> st &&& submask (fn - st)

/-- `bits` of a signed number. -/
def sbits (obj : ℤ) (st fn : ℕ) : ℕ := (obj >>> st % 2 ^ (fn - st + 1)).toNat

/-- The macro `bit` -/
def bit (obj st : ℕ) : ℕ := obj >>> st &&& 1

/-- The macro `set_bits` -/
def set_bits (obj st fn bits : ℕ) : ℕ := replace obj st (fn - st + 1) bits

/-- The macro `set_bit` -/
def set_bit (obj st bit : ℕ) : ℕ := replace obj st 1 bit

end Macros

section Encoders

/-- `TMP_REG_0` -/
def TMP_REG_0 : ℕ := 17

/-- `MoveWide` of a register of 64 bits. -/
def MoveWide (op rd imm shift : ℕ) : ℕ :=
  0x12800000 ||| op ||| LeftShift 1 1 31 ||| LeftShift (shift / 16) 2 21 |||
    LeftShift imm 16 5 ||| rd

/-- The word of `movz` -/
def movz (rd imm shift : ℕ) : ℕ := MoveWide 0x40000000 rd imm shift

/-- The word of `movk` -/
def movk (rd imm shift : ℕ) : ℕ := MoveWide 0x60000000 rd imm shift

/-- The word of `br` -/
def br (rn : ℕ) : ℕ := 0xD61F0000 ||| rn <<< 5

/-- The word of `blr` -/
def blr (rn : ℕ) : ℕ := 0xD63F0000 ||| rn <<< 5

/-- `ldr` with a base: the encoding is that of 64 bits, whatever the width of the register. -/
def ldr (rt rn offset : ℕ) : ℕ :=
  0x39000000 ||| (LeftShift 3 2 30 ||| LeftShift 1 2 22) ||| LeftShift (offset >>> 3) 12 10 |||
    rn <<< 5 ||| rt

/-- `ldr` of a literal into a register of 64 bits. -/
def ldrLiteral (rt imm : ℕ) : ℕ := 0x58000000 ||| LeftShift imm 26 5 ||| rt

/-- The word of `b` -/
def b (imm : ℤ) : ℕ := 0x14000000 ||| sbits (imm >>> (2 : ℕ)) 0 25

/-- The word of `adrp` -/
def adrp (rd : ℕ) (imm : ℤ) : ℕ :=
  0x90000000 ||| rd ||| LeftShift (sbits (imm >>> (12 : ℕ)) 0 1) 2 29 |||
    LeftShift (sbits (imm >>> (12 : ℕ)) 2 20) 19 5

/-- `add` of an immediate to a register of 64 bits. -/
def add (rd rn imm : ℕ) : ℕ := 0x91000000 ||| rd ||| rn <<< 5 ||| LeftShift imm 12 10

/-- `Mov`: the four quarters of the number. -/
def Mov (rd imm : ℕ) : List ℕ :=
  let w0 := imm &&& 0xffffffff
  let w1 := imm >>> 32
  [movz rd (w0 &&& 0xffff) 0, movk rd (w0 >>> 16) 16, movk rd (w1 &&& 0xffff) 32,
    movk rd (w1 >>> 16) 48]

/-- The offset of 19 bits put into an instruction. -/
def encode_imm19_offset (instr : ℕ) (offset : ℤ) : ℕ :=
  set_bits instr 5 23 (sbits (offset >>> (2 : ℕ)) 0 18)

end Encoders

/-- A label with the number that is emitted at its place, and the offsets of the instructions that
load it. -/
structure RelocLabel where
  pos : ℕ
  data : ℕ
  ref_label_insns : List ℕ
  deriving DecidableEq

/-- A label with its data and no place yet. -/
def RelocLabel.withData (value : ℕ) : RelocLabel := ⟨0, value, []⟩

/-- The assembler: the code so far, and the labels of its data. -/
structure TurboAssembler where
  buffer : List ℕ
  data_labels : List RelocLabel
  deriving DecidableEq

namespace TurboAssembler

/-- The assembler at its start. -/
def empty : TurboAssembler := ⟨[], []⟩

/-- How much code there is, in bytes. -/
def GetBufferSize (asm : TurboAssembler) : ℕ := 4 * asm.buffer.length

/-- An instruction behind the others. -/
def Emit (asm : TurboAssembler) (w : ℕ) : TurboAssembler := { asm with buffer := asm.buffer ++ [w] }

/-- Several words, one after the other. -/
def EmitAll (asm : TurboAssembler) (words : List ℕ) : TurboAssembler :=
  { asm with buffer := asm.buffer ++ words }

/-- A label behind the others. -/
def AppendRelocLabel (asm : TurboAssembler) (label : RelocLabel) : TurboAssembler :=
  { asm with data_labels := asm.data_labels ++ [label] }

/-- `Ldr` of the label at a place in the list. -/
def Ldr (asm : TurboAssembler) (rt label : ℕ) : TurboAssembler :=
  match asm.data_labels[label]? with
  | none => asm
  | some l =>
    if l.pos ≠ 0 then asm.Emit (ldrLiteral rt (l.pos - asm.GetBufferSize))
    else
      let linked := { l with ref_label_insns := l.ref_label_insns ++ [asm.GetBufferSize] }
      TurboAssembler.Emit { asm with data_labels := asm.data_labels.set label linked }
        (ldrLiteral rt 0)

/-- `RelocLabel::withData`, `AppendRelocLabel` and `Ldr`, as the callers have them in a row. -/
def LdrData (asm : TurboAssembler) (rt value : ℕ) : TurboAssembler :=
  (asm.AppendRelocLabel (.withData value)).Ldr rt asm.data_labels.length

/-- `link_confused_instructions`: the instructions that load a label at `pos`. -/
def link_confused_instructions (buffer : List ℕ) (pos : ℕ) (refs : List ℕ) : List ℕ :=
  refs.foldl (fun buffer ref =>
    buffer.set (ref / 4) (encode_imm19_offset (buffer.getD (ref / 4) 0) (pos - ref))) buffer

/-- `PseudoBind` of a label, and its number behind the buffer. -/
def bindLabel (buffer : List ℕ) (label : RelocLabel) : List ℕ :=
  link_confused_instructions buffer (4 * buffer.length) label.ref_label_insns ++
    [label.data % 2 ^ 32, label.data / 2 ^ 32]

/-- The buffer with all labels bound. -/
def RelocBind (asm : TurboAssembler) : List ℕ := asm.data_labels.foldl bindLabel asm.buffer

end TurboAssembler

/-- `CodeGen::LiteralLdrBranch` -/
def LiteralLdrBranch (asm : TurboAssembler) (address : ℕ) : TurboAssembler :=
  (asm.LdrData TMP_REG_0 address).Emit (br TMP_REG_0)

section Fields

/-- `LeftShift` as a remainder and a product. -/
theorem leftShift_eq (a b c : ℕ) : LeftShift a b c = a % 2 ^ b * 2 ^ c := by
  rw [LeftShift, Nat.shiftLeft_eq 1, one_mul, Nat.and_two_pow_sub_one_eq_mod, Nat.shiftLeft_eq]

/-- `bits` as a field. -/
theorem bits_eq (obj st fn : ℕ) : bits obj st fn = field obj st (fn - st + 1) := by
  rw [bits, submask, Nat.shiftLeft_eq, one_mul, shiftRight_and]

/-- `bit` as a field. -/
theorem bit_eq (obj st : ℕ) : bit obj st = field obj st 1 := by
  rw [bit, ← shiftRight_and]
  rfl

/-- The bits of a signed number as a remainder. -/
theorem sbits_eq (obj : ℤ) (st fn : ℕ) :
    sbits obj st fn = (obj / 2 ^ st % 2 ^ (fn - st + 1)).toNat := by
  rw [sbits, Int.shiftRight_eq_div_pow]
  push_cast
  rfl

/-- The bits of a signed number are as many as are asked for. -/
theorem sbits_lt (obj : ℤ) (st fn : ℕ) : sbits obj st fn < 2 ^ (fn - st + 1) := by
  rw [sbits_eq]
  have hpos : (0 : ℤ) < 2 ^ (fn - st + 1) := by positivity
  have hlt := Int.emod_lt_of_pos (obj / 2 ^ st) hpos
  have hnonneg := Int.emod_nonneg (obj / 2 ^ st) (ne_of_gt hpos)
  zify
  rw [Int.toNat_of_nonneg hnonneg]
  exact hlt

end Fields

end XposedJniTrace.Dobby
