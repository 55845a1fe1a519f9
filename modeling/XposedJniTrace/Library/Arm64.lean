import Mathlib.Logic.Function.Iterate
import Mathlib.Tactic.IntervalCases
import XposedJniTrace.Library.ByteMemory
import XposedJniTrace.Library.WordFields

/-!
# Code of A64

The instructions of A64 that depend on the address where they are, and those that a piece of
generated code is made of. What the other instructions do is a parameter: they read no address, but
may leave their place by a jump or a call. A register of number 31 reads as zero and is not written,
but as the base of an address or of a sum it is the stack pointer.
-/

namespace Arm64

open ByteMemory WordFields

/-- The condition flags. -/
structure Flags where
  n : Bool
  z : Bool
  c : Bool
  v : Bool

/-- The state of a thread, but for the program counter. -/
structure Core (σ : Type*) where
  x : ℕ → ℕ
  sp : ℕ
  v : ℕ → ℕ
  flags : Flags
  mem : Memory
  rest : σ

/-- What is loaded from a literal. -/
inductive Literal where
  | word
  | doubleword
  | signedWord
  | prefetch
  | single
  | double
  | quad
  deriving DecidableEq

/-- The instructions that are decoded; all others keep their word. -/
inductive Instr where
  | b (offset : ℤ)
  | bl (offset : ℤ)
  | ldrLiteral (kind : Literal) (rt : ℕ) (offset : ℤ)
  | adr (rd : ℕ) (offset : ℤ)
  | adrp (rd : ℕ) (offset : ℤ)
  | bCond (cond : ℕ) (offset : ℤ)
  | cb (wide nonzero : Bool) (rt : ℕ) (offset : ℤ)
  | tb (nonzero : Bool) (bit rt : ℕ) (offset : ℤ)
  | movz (rd imm shift : ℕ)
  | movk (rd imm shift : ℕ)
  | addImm (rd rn imm : ℕ)
  | ldr (rt rn offset : ℕ)
  | br (rn : ℕ)
  | blr (rn : ℕ)
  | other (w : ℕ)
  deriving DecidableEq

/-- Where an instruction leads. -/
inductive Flow where
  | next
  | jump (target : ℕ)
  | call (target : ℕ)
  deriving DecidableEq

section Decode

/-- The kind of a literal by the size and whether it goes to a vector register. -/
def literal (opc vector : ℕ) : Option Literal :=
  if vector = 0 then
    if opc = 0 then some .word
    else if opc = 1 then some .doubleword
    else if opc = 2 then some .signedWord
    else some .prefetch
  else if opc = 0 then some .single
  else if opc = 1 then some .double
  else if opc = 2 then some .quad
  else none

/-- The offset in a field that counts instructions. -/
def branchOffset (w lo len : ℕ) : ℤ := 4 * signed len (field w lo len)

/-- The offset of `ADR`, and in pages of `ADRP`. -/
def addressOffset (w : ℕ) : ℤ := signed 21 (field w 5 19 * 4 + field w 29 2)

/-- The instructions that do not depend on their address. -/
def decodeFree (w : ℕ) : Instr :=
  if field w 23 9 = 0b110100101 then .movz (field w 0 5) (field w 5 16) (16 * field w 21 2)
  else if field w 23 9 = 0b111100101 then .movk (field w 0 5) (field w 5 16) (16 * field w 21 2)
  else if field w 22 10 = 0b1001000100 then .addImm (field w 0 5) (field w 5 5) (field w 10 12)
  else if field w 22 10 = 0b1111100101 then .ldr (field w 0 5) (field w 5 5) (8 * field w 10 12)
  else if field w 10 22 = 0x3587C0 ∧ field w 0 5 = 0 then .br (field w 5 5)
  else if field w 10 22 = 0x358FC0 ∧ field w 0 5 = 0 then .blr (field w 5 5)
  else .other w

/-- The instruction that a word encodes. -/
def decode (w : ℕ) : Instr :=
  if field w 26 5 = 0b00101 then
    if field w 31 1 = 0 then .b (branchOffset w 0 26) else .bl (branchOffset w 0 26)
  else if field w 27 3 = 0b011 ∧ field w 24 2 = 0 then
    match literal (field w 30 2) (field w 26 1) with
    | some kind => .ldrLiteral kind (field w 0 5) (branchOffset w 5 19)
    | none => .other w
  else if field w 24 5 = 0b10000 then
    if field w 31 1 = 0 then .adr (field w 0 5) (addressOffset w)
    else .adrp (field w 0 5) (4096 * addressOffset w)
  else if field w 25 7 = 0b0101010 ∧ field w 24 1 = 0 then
    .bCond (field w 0 4) (branchOffset w 5 19)
  else if field w 25 6 = 0b011010 then
    .cb (field w 31 1 = 1) (field w 24 1 = 1) (field w 0 5) (branchOffset w 5 19)
  else if field w 25 6 = 0b011011 then
    .tb (field w 24 1 = 1) (field w 31 1 * 32 + field w 19 5) (field w 0 5) (branchOffset w 5 14)
  else decodeFree w

/-!
Each class of instructions by the field that tells it from the others.
-/

variable {w : ℕ}

/-- A branch of the first class goes on, or calls. -/
theorem decode_branch (h : field w 26 5 = 0b00101) :
    decode w = if field w 31 1 = 0 then .b (branchOffset w 0 26)
      else .bl (branchOffset w 0 26) := by
  rw [decode, if_pos h]

/-- A literal is loaded into the register that the word names. -/
theorem decode_literal (hclass : field w 27 3 = 0b011) (hfixed : field w 24 2 = 0) {kind : Literal}
    (hkind : literal (field w 30 2) (field w 26 1) = some kind) :
    decode w = .ldrLiteral kind (field w 0 5) (branchOffset w 5 19) := by
  have hbranch : field w 26 5 ≠ 0b00101 := by
    unfold field at *
    omega
  rw [decode, if_neg hbranch, if_pos ⟨hclass, hfixed⟩, hkind]

/-- An address is formed of a byte, or of a page. -/
theorem decode_address (h : field w 24 5 = 0b10000) :
    decode w = if field w 31 1 = 0 then .adr (field w 0 5) (addressOffset w)
      else .adrp (field w 0 5) (4096 * addressOffset w) := by
  have hbranch : field w 26 5 ≠ 0b00101 := by
    unfold field at *
    omega
  have hliteral : ¬ (field w 27 3 = 0b011 ∧ field w 24 2 = 0) := by
    unfold field at *
    omega
  rw [decode, if_neg hbranch, if_neg hliteral, if_pos h]

/-- A conditional branch has its condition and its offset. -/
theorem decode_bCond (hclass : field w 25 7 = 0b0101010) (hfixed : field w 24 1 = 0) :
    decode w = .bCond (field w 0 4) (branchOffset w 5 19) := by
  have hbranch : field w 26 5 ≠ 0b00101 := by
    unfold field at *
    omega
  have hliteral : ¬ (field w 27 3 = 0b011 ∧ field w 24 2 = 0) := by
    unfold field at *
    omega
  have haddress : field w 24 5 ≠ 0b10000 := by
    unfold field at *
    omega
  rw [decode, if_neg hbranch, if_neg hliteral, if_neg haddress, if_pos ⟨hclass, hfixed⟩]

/-- A compare-and-branch has its width, its sense, its register and its offset. -/
theorem decode_cb (h : field w 25 6 = 0b011010) :
    decode w = .cb (field w 31 1 = 1) (field w 24 1 = 1) (field w 0 5) (branchOffset w 5 19) := by
  have hbranch : field w 26 5 ≠ 0b00101 := by
    unfold field at *
    omega
  have hliteral : ¬ (field w 27 3 = 0b011 ∧ field w 24 2 = 0) := by
    unfold field at *
    omega
  have haddress : field w 24 5 ≠ 0b10000 := by
    unfold field at *
    omega
  have hcond : ¬ (field w 25 7 = 0b0101010 ∧ field w 24 1 = 0) := by
    unfold field at *
    omega
  rw [decode, if_neg hbranch, if_neg hliteral, if_neg haddress, if_neg hcond, if_pos h]

/-- A test-and-branch has its sense, its bit, its register and its offset. -/
theorem decode_tb (h : field w 25 6 = 0b011011) :
    decode w = .tb (field w 24 1 = 1) (field w 31 1 * 32 + field w 19 5) (field w 0 5)
      (branchOffset w 5 14) := by
  have hbranch : field w 26 5 ≠ 0b00101 := by
    unfold field at *
    omega
  have hliteral : ¬ (field w 27 3 = 0b011 ∧ field w 24 2 = 0) := by
    unfold field at *
    omega
  have haddress : field w 24 5 ≠ 0b10000 := by
    unfold field at *
    omega
  have hcond : ¬ (field w 25 7 = 0b0101010 ∧ field w 24 1 = 0) := by
    unfold field at *
    omega
  have hcb : field w 25 6 ≠ 0b011010 := by
    rw [h]
    decide
  rw [decode, if_neg hbranch, if_neg hliteral, if_neg haddress, if_neg hcond, if_neg hcb, if_pos h]

/-- The first eight bits tell a free instruction from the others. -/
theorem decode_free {op : ℕ} (hop : field w 24 8 = op)
    (hfree : op / 4 % 32 ≠ 5 ∧ (op / 8 % 8 ≠ 3 ∨ op % 4 ≠ 0) ∧ op % 32 ≠ 16 ∧ op ≠ 0b01010100 ∧
      op / 2 % 64 ≠ 26 ∧ op / 2 % 64 ≠ 27) :
    decode w = decodeFree w := by
  have hbranch : field w 26 5 ≠ 0b00101 := by
    unfold field at *
    omega
  have hliteral : ¬ (field w 27 3 = 0b011 ∧ field w 24 2 = 0) := by
    unfold field at *
    omega
  have haddress : field w 24 5 ≠ 0b10000 := by
    unfold field at *
    omega
  have hcond : ¬ (field w 25 7 = 0b0101010 ∧ field w 24 1 = 0) := by
    unfold field at *
    omega
  have hcb : field w 25 6 ≠ 0b011010 := by
    unfold field at *
    omega
  have htb : field w 25 6 ≠ 0b011011 := by
    unfold field at *
    omega
  rw [decode, if_neg hbranch, if_neg hliteral, if_neg haddress, if_neg hcond,
    if_neg hcb, if_neg htb]

/-- `MOVZ` has a register, a value and a shift. -/
theorem decode_movz (h : field w 23 9 = 0b110100101) :
    decode w = .movz (field w 0 5) (field w 5 16) (16 * field w 21 2) := by
  have hop : field w 24 8 = 0xD2 := by
    unfold field at *
    omega
  rw [decode_free hop (by decide), decodeFree, if_pos h]

/-- `MOVK` has a register, a value and a shift. -/
theorem decode_movk (h : field w 23 9 = 0b111100101) :
    decode w = .movk (field w 0 5) (field w 5 16) (16 * field w 21 2) := by
  have hop : field w 24 8 = 0xF2 := by
    unfold field at *
    omega
  rw [decode_free hop (by decide), decodeFree, h, if_neg (by decide), if_pos rfl]

/-- An addition has two registers and a value. -/
theorem decode_addImm (h : field w 22 10 = 0b1001000100) :
    decode w = .addImm (field w 0 5) (field w 5 5) (field w 10 12) := by
  have hop : field w 24 8 = 0x91 := by
    unfold field at *
    omega
  have hwide : field w 23 9 = 290 := by
    unfold field at *
    omega
  rw [decode_free hop (by decide), decodeFree, hwide, if_neg (by decide),
    if_neg (by decide), if_pos h]

/-- A load has two registers and an offset. -/
theorem decode_ldr (h : field w 22 10 = 0b1111100101) :
    decode w = .ldr (field w 0 5) (field w 5 5) (8 * field w 10 12) := by
  have hop : field w 24 8 = 0xF9 := by
    unfold field at *
    omega
  have hwide : field w 23 9 = 498 := by
    unfold field at *
    omega
  rw [decode_free hop (by decide), decodeFree, hwide, h, if_neg (by decide), if_neg (by decide),
    if_neg (by decide), if_pos rfl]

/-- `BR` has the register with the target. -/
theorem decode_br (h : field w 10 22 = 0x3587C0) (hzero : field w 0 5 = 0) :
    decode w = .br (field w 5 5) := by
  have hop : field w 24 8 = 0xD6 := by
    unfold field at *
    omega
  have hwide : field w 23 9 = 428 := by
    unfold field at *
    omega
  have hsize : field w 22 10 = 856 := by
    unfold field at *
    omega
  rw [decode_free hop (by decide), decodeFree, hwide, hsize, if_neg (by decide), if_neg (by decide),
    if_neg (by decide), if_neg (by decide), if_pos ⟨h, hzero⟩]

/-- `BLR` has the register with the target. -/
theorem decode_blr (h : field w 10 22 = 0x358FC0) (hzero : field w 0 5 = 0) :
    decode w = .blr (field w 5 5) := by
  have hop : field w 24 8 = 0xD6 := by
    unfold field at *
    omega
  have hwide : field w 23 9 = 428 := by
    unfold field at *
    omega
  have hsize : field w 22 10 = 856 := by
    unfold field at *
    omega
  rw [decode_free hop (by decide), decodeFree, hwide, hsize, h, if_neg (by decide),
    if_neg (by decide),
    if_neg (by decide), if_neg (by decide), if_neg (by simp), if_pos ⟨rfl, hzero⟩]

end Decode

/-- Whether a condition holds. -/
def Flags.holds (f : Flags) (cond : ℕ) : Bool :=
  let result :=
    if cond / 2 = 0 then f.z
    else if cond / 2 = 1 then f.c
    else if cond / 2 = 2 then f.n
    else if cond / 2 = 3 then f.v
    else if cond / 2 = 4 then f.c && !f.z
    else if cond / 2 = 5 then f.n == f.v
    else if cond / 2 = 6 then f.n == f.v && !f.z
    else true
  if cond % 2 = 1 ∧ cond ≠ 15 then !result else result

namespace Core

variable {σ : Type*}

/-- The value of a register; the last one reads as zero. -/
def get (c : Core σ) (r : ℕ) : ℕ := if r = 31 then 0 else c.x r

/-- A register is set, unless it is the last one. -/
def set (c : Core σ) (r value : ℕ) : Core σ :=
  if r = 31 then c else { c with x := Function.update c.x r value }

/-- A register as a base. -/
def base (c : Core σ) (r : ℕ) : ℕ := if r = 31 then c.sp else c.x r

/-- A register is set where the last one stands for the stack pointer. -/
def setBase (c : Core σ) (r value : ℕ) : Core σ :=
  if r = 31 then { c with sp := value } else { c with x := Function.update c.x r value }

/-- A vector register is set. -/
def setV (c : Core σ) (r value : ℕ) : Core σ := { c with v := Function.update c.v r value }

end Core

section Exec

variable {σ : Type*} (others : ℕ → Core σ → Core σ × Flow)

/-- A literal is loaded into a register. -/
def Core.load (c : Core σ) (kind : Literal) (rt a : ℕ) : Core σ :=
  match kind with
  | .word => c.set rt (number c.mem a 4)
  | .doubleword => c.set rt (number c.mem a 8)
  | .signedWord => c.set rt (wrap (signed 32 (number c.mem a 4)))
  | .prefetch => c
  | .single => c.setV rt (number c.mem a 4)
  | .double => c.setV rt (number c.mem a 8)
  | .quad => c.setV rt (number c.mem a 16)

/-- A branch is taken, or the next instruction follows. -/
def branchIf (taken : Bool) (target : ℕ) : Flow := if taken then .jump target else .next

/-- What an instruction does at an address. -/
def exec (pc : ℕ) (c : Core σ) : Instr → Core σ × Flow
  | .b offset => (c, .jump (wrap (pc + offset)))
  | .bl offset => (c, .call (wrap (pc + offset)))
  | .ldrLiteral kind rt offset => (c.load kind rt (wrap (pc + offset)), .next)
  | .adr rd offset => (c.set rd (wrap (pc + offset)), .next)
  | .adrp rd offset => (c.set rd (wrap ((pc / 4096 * 4096 : ℕ) + offset)), .next)
  | .bCond cond offset => (c, branchIf (c.flags.holds cond) (wrap (pc + offset)))
  | .cb wide nonzero rt offset =>
    let value := if wide then c.get rt else c.get rt % 2 ^ 32
    (c, branchIf (decide (value = 0) != nonzero) (wrap (pc + offset)))
  | .tb nonzero bit rt offset =>
    (c, branchIf ((c.get rt).testBit bit == nonzero) (wrap (pc + offset)))
  | .movz rd imm shift => (c.set rd (imm * 2 ^ shift), .next)
  | .movk rd imm shift =>
    (c.set rd (c.get rd - field (c.get rd) shift 16 * 2 ^ shift + imm * 2 ^ shift), .next)
  | .addImm rd rn imm => (c.setBase rd (wrap (c.base rn + imm)), .next)
  | .ldr rt rn offset => (c.set rt (number c.mem (wrap (c.base rn + offset)) 8), .next)
  | .br rn => (c, .jump (c.get rn))
  | .blr rn => (c, .call (c.get rn))
  | .other w => others w c

/-- The state behind an instruction, with the address of the next one. -/
def follow (next : ℕ) : Core σ × Flow → ℕ × Core σ
  | (c, .next) => (next, c)
  | (c, .jump target) => (target, c)
  | (c, .call target) => (target, c.set 30 next)

/-- One step of a thread. -/
def step (s : ℕ × Core σ) : ℕ × Core σ :=
  follow (wrap (s.1 + 4)) (exec others s.1 s.2 (decode (number s.2.mem s.1 4)))

/-- A state is reached from another. -/
def Reaches (s s' : ℕ × Core σ) : Prop := ∃ n, (step others)^[n] s = s'

variable {others} {s s' s'' : ℕ × Core σ}

/-- A state reaches itself. -/
theorem Reaches.refl : Reaches others s s := ⟨0, rfl⟩

/-- What is reached from a state that is reached is reached. -/
theorem Reaches.trans (h : Reaches others s s') (h' : Reaches others s' s'') :
    Reaches others s s'' := by
  obtain ⟨n, rfl⟩ := h
  obtain ⟨m, rfl⟩ := h'
  exact ⟨m + n, Function.iterate_add_apply _ _ _ _⟩

/-- A step, and what is reached behind it. -/
theorem Reaches.head (hstep : step others s = s') (h : Reaches others s' s'') :
    Reaches others s s'' :=
  Reaches.trans ⟨1, hstep⟩ h

/-- The step at an address whose instruction is known. -/
theorem step_eq {pc w : ℕ} {c : Core σ} (hw : number c.mem pc 4 = w) :
    step others (pc, c) = follow (wrap (pc + 4)) (exec others pc c (decode w)) := by
  rw [step, hw]

end Exec

namespace Core

variable {σ : Type*} {c : Core σ} {r r' value value' : ℕ}

/-- A register that is set leaves memory alone. -/
@[simp] theorem mem_set : (c.set r value).mem = c.mem := by
  unfold set
  split_ifs <;> rfl

/-- A register that is set leaves the flags alone. -/
@[simp] theorem flags_set : (c.set r value).flags = c.flags := by
  unfold set
  split_ifs <;> rfl

/-- A register has the value that it is set to. -/
theorem get_set (hr : r ≠ 31) : (c.set r value).get r = value := by
  simp [set, get, hr]

/-- A base register has the value that it is set to. -/
theorem base_set (hr : r ≠ 31) : (c.set r value).base r = value := by
  simp [set, base, hr]

/-- Only the last register tells the two ways to set one apart. -/
theorem setBase_eq (hr : r ≠ 31) : c.setBase r value = c.set r value := by
  rw [setBase, set, if_neg hr, if_neg hr]

/-- Of two values the second one stays. -/
theorem set_set : (c.set r value).set r value' = c.set r value' := by
  unfold set
  split_ifs <;> simp

/-- The last register cannot be set. -/
@[simp] theorem set_zero : c.set 31 value = c := if_pos rfl

/-- Two registers are set in either order. -/
theorem set_comm (h : r ≠ r') : (c.set r value).set r' value' = (c.set r' value').set r value := by
  unfold set
  split_ifs <;> simp [Function.update_comm h]

/-- Writing what a register holds changes nothing. -/
theorem set_get : c.set r (c.get r) = c := by
  unfold set get
  split_ifs <;> simp

/-- A literal that is loaded leaves memory alone. -/
theorem mem_load {kind : Literal} {a : ℕ} : (c.load kind r a).mem = c.mem := by
  cases kind with
  | word => exact mem_set
  | doubleword => exact mem_set
  | signedWord => exact mem_set
  | prefetch => rfl
  | single => rfl
  | double => rfl
  | quad => rfl

end Core

/-- The opposite of a condition, but for the two that always hold. -/
theorem Flags.holds_xor (f : Flags) {cond : ℕ} (h : cond < 14) :
    f.holds (cond ^^^ 1) = !f.holds cond := by
  obtain ⟨n, z, c, v⟩ := f
  interval_cases cond <;> simp [Flags.holds]

end Arm64
