import XposedJniTrace.Library.Arm64

/-!
# Instructions one behind the other

What a row of instructions does up to the point where it is left: by a jump, by a call, or behind
the last one. The instructions are given, so that this also says what they would do at addresses
where they no longer are. The return address of a call is a parameter.
-/

namespace Arm64

open ByteMemory WordFields

section Run

variable {σ : Type*} (others : ℕ → Core σ → Core σ × Flow) (link : ℕ → ℕ)

/-- Where the instructions from `pc` on are left, and the state there. -/
def runStraight : ℕ → List ℕ → Core σ → ℕ × Core σ
  | pc, [], c => (wrap pc, c)
  | pc, w :: insns, c =>
    match exec others pc c (decode w) with
    | (c', .next) => runStraight (pc + 4) insns c'
    | (c', .jump target) => (target, c')
    | (c', .call target) => (target, c'.set 30 (link (pc + 4)))

/-- The instruction does not read a register. -/
def Blind (r w : ℕ) : Prop :=
  ∀ (pc : ℕ) (c : Core σ) (value : ℕ), ∃ value', exec others pc (c.set r value) (decode w) =
    ((exec others pc c (decode w)).1.set r value', (exec others pc c (decode w)).2)

/-- What the other instructions do leaves `n` bytes of memory alone. -/
def Keeps (a n : ℕ) : Prop := ∀ (w : ℕ) (c : Core σ), AgreeOn c.mem (others w c).1.mem a n

variable {others link} {c : Core σ} {pc w : ℕ}

/-- Behind an instruction that goes on come the others. -/
theorem runStraight_next {insns : List ℕ} {c' : Core σ}
    (h : exec others pc c (decode w) = (c', .next)) :
    runStraight others link pc (w :: insns) c = runStraight others link (pc + 4) insns c' := by
  rw [runStraight, h]

/-- A jump leaves the instructions. -/
theorem runStraight_jump {insns : List ℕ} {c' : Core σ} {target : ℕ}
    (h : exec others pc c (decode w) = (c', .jump target)) :
    runStraight others link pc (w :: insns) c = (target, c') := by
  rw [runStraight, h]

/-- A call leaves the instructions with its return address. -/
theorem runStraight_call {insns : List ℕ} {c' : Core σ} {target : ℕ}
    (h : exec others pc c (decode w) = (c', .call target)) :
    runStraight others link pc (w :: insns) c = (target, c'.set 30 (link (pc + 4))) := by
  rw [runStraight, h]

/-- No instruction but the others writes memory. -/
theorem Keeps.exec {a n : ℕ} (h : Keeps others a n) (pc : ℕ) (c : Core σ) (i : Instr) :
    AgreeOn c.mem (exec others pc c i).1.mem a n := by
  have hsame : ∀ mem : Memory, mem = c.mem → AgreeOn c.mem mem a n := by
    rintro mem rfl
    exact AgreeOn.refl
  cases i with
  | other w => exact h w c
  | addImm rd rn imm =>
    apply hsame
    simp only [Arm64.exec, Core.setBase]
    split_ifs <;> rfl
  | ldrLiteral kind rt offset => exact hsame _ Core.mem_load
  | b => exact AgreeOn.refl
  | bl => exact AgreeOn.refl
  | bCond => exact AgreeOn.refl
  | cb => exact AgreeOn.refl
  | tb => exact AgreeOn.refl
  | br => exact AgreeOn.refl
  | blr => exact AgreeOn.refl
  | adr => exact hsame _ Core.mem_set
  | adrp => exact hsame _ Core.mem_set
  | movz => exact hsame _ Core.mem_set
  | movk => exact hsame _ Core.mem_set
  | ldr => exact hsame _ Core.mem_set

/-- Instructions that are in the memory do what the row of them does. -/
theorem reaches_runStraight {insns : List ℕ} (hwords : ∀ w ∈ insns, w < 2 ^ 32)
    (hend : pc + 4 * insns.length ≤ 2 ^ 64) (hkeeps : Keeps others pc (4 * insns.length))
    (h : Holds c.mem pc (bytesOf insns)) :
    Reaches others (wrap pc, c) (runStraight others (fun a => wrap a) pc insns c) := by
  induction insns generalizing pc c with
  | nil => exact .refl
  | cons w insns ih =>
    rw [List.length_cons] at hend hkeeps
    have hpc : wrap pc = pc := wrap_of_lt (by omega)
    have hstep : step others (pc, c) = follow (wrap (pc + 4)) (exec others pc c (decode w)) :=
      step_eq (number_of_holds_cons (hwords w List.mem_cons_self) h)
    have hcast : ((pc + 4 : ℕ) : ℤ) = (pc : ℤ) + 4 := by push_cast; rfl
    have hagree := hkeeps.exec pc c (decode w)
    rcases hexec : exec others pc c (decode w) with ⟨c', flow⟩
    rw [hexec] at hstep hagree
    rw [hpc]
    cases flow with
    | next =>
      rw [runStraight_next hexec]
      have hrest : Holds c'.mem (pc + 4) (bytesOf insns) := by
        apply (holds_bytesOf_cons.mp h).2.congr
        rw [length_bytesOf]
        exact hagree.mono (by omega) (by omega)
      have hkeeps' : Keeps others (pc + 4) (4 * insns.length) := fun w c =>
        (hkeeps w c).mono (by omega) (by omega)
      have hreach := ih (fun w' hw' => hwords w' (List.mem_cons_of_mem w hw'))
        (by omega) hkeeps' hrest
      rw [hcast] at hreach
      exact .head hstep hreach
    | jump target =>
      rw [runStraight_jump hexec]
      exact .head hstep .refl
    | call target =>
      rw [runStraight_call hexec]
      rw [← hcast] at hstep
      exact .head hstep .refl

end Run

end Arm64
