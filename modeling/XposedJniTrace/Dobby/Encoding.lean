import XposedJniTrace.Dobby.Assembler

/-!
# What the encoders encode

Each word that the assembler emits is decoded as the instruction that it is meant to be, the four
words of `Mov` put a number into a register, and a buffer whose labels are bound is the code of its
slots with their pool of literals.
-/

namespace XposedJniTrace.Dobby

open Arm64 ByteMemory LiteralPool WordFields

variable {rd rn imm shift : ℕ}

/-- The word of a wide move as a sum. -/
theorem MoveWide_eq {op : ℕ} (hop : op = 0x40000000 ∨ op = 0x60000000) (hrd : rd < 32)
    (himm : imm < 2 ^ 16)
    (hshift : shift < 64) :
    MoveWide op rd imm shift = 0x92800000 + op + shift / 16 * 2 ^ 21 + imm * 2 ^ 5 + rd := by
  have hsize : shift / 16 % 2 ^ 2 = shift / 16 := Nat.mod_eq_of_lt (by omega)
  have hhigh : (0x12800000 ||| op ||| 1 % 2 ^ 1 * 2 ^ 31) ||| shift / 16 * 2 ^ 21 =
      0x92800000 + op + shift / 16 * 2 ^ 21 := by
    rcases hop with rfl | rfl
    · exact mul_or (k := 23) (by omega) 0x1A5
    · exact mul_or (k := 23) (by omega) 0x1E5
  have hmid : (0x92800000 + op + shift / 16 * 2 ^ 21) ||| imm * 2 ^ 5 =
      0x92800000 + op + shift / 16 * 2 ^ 21 + imm * 2 ^ 5 := by
    have hmul : 0x92800000 + op + shift / 16 * 2 ^ 21 =
        (0x494 + op / 2 ^ 21 + shift / 16) * 2 ^ 21 := by
      omega
    rw [hmul]
    exact mul_or (by omega) _
  have hlow : (0x92800000 + op + shift / 16 * 2 ^ 21 + imm * 2 ^ 5) ||| rd =
      0x92800000 + op + shift / 16 * 2 ^ 21 + imm * 2 ^ 5 + rd := by
    have hmul : 0x92800000 + op + shift / 16 * 2 ^ 21 + imm * 2 ^ 5 =
        (0x4940000 + op / 2 ^ 5 + shift / 16 * 2 ^ 16 + imm) * 2 ^ 5 := by
      omega
    rw [hmul]
    exact mul_or hrd _
  rw [MoveWide, leftShift_eq, leftShift_eq, leftShift_eq, hsize, Nat.mod_eq_of_lt himm,
    hhigh, hmid, hlow]

/-- The word of `movz` is decoded as it. -/
theorem decode_movz_word (hrd : rd < 32) (himm : imm < 2 ^ 16) (hshift : shift < 64) :
    decode (movz rd imm shift) = .movz rd imm (16 * (shift / 16)) := by
  have heq := MoveWide_eq (.inl rfl) hrd himm hshift
  have hclass : field (movz rd imm shift) 23 9 = 0b110100101 := by
    rw [movz, heq, field]
    omega
  have hregister : field (movz rd imm shift) 0 5 = rd := by
    rw [movz, heq, field]
    omega
  have hnumber : field (movz rd imm shift) 5 16 = imm := by
    rw [movz, heq, field]
    omega
  have hsize : field (movz rd imm shift) 21 2 = shift / 16 := by
    rw [movz, heq, field]
    omega
  rw [decode_movz hclass, hregister, hnumber, hsize]

/-- The word of `movk` is decoded as it. -/
theorem decode_movk_word (hrd : rd < 32) (himm : imm < 2 ^ 16) (hshift : shift < 64) :
    decode (movk rd imm shift) = .movk rd imm (16 * (shift / 16)) := by
  have heq := MoveWide_eq (.inr rfl) hrd himm hshift
  have hclass : field (movk rd imm shift) 23 9 = 0b111100101 := by
    rw [movk, heq, field]
    omega
  have hregister : field (movk rd imm shift) 0 5 = rd := by
    rw [movk, heq, field]
    omega
  have hnumber : field (movk rd imm shift) 5 16 = imm := by
    rw [movk, heq, field]
    omega
  have hsize : field (movk rd imm shift) 21 2 = shift / 16 := by
    rw [movk, heq, field]
    omega
  rw [decode_movk hclass, hregister, hnumber, hsize]

/-- The word of `br` as a sum. -/
theorem br_eq (hrn : rn < 32) : br rn = 0xD61F0000 + rn * 2 ^ 5 := by
  rw [br, Nat.shiftLeft_eq]
  exact mul_or (k := 16) (by omega) 0xD61F

/-- The word of `br` is decoded as it. -/
theorem decode_br_word (hrn : rn < 32) : decode (br rn) = .br rn := by
  have hclass : field (br rn) 10 22 = 0x3587C0 := by
    rw [br_eq hrn, field]
    omega
  have hzero : field (br rn) 0 5 = 0 := by
    rw [br_eq hrn, field]
    omega
  have hregister : field (br rn) 5 5 = rn := by
    rw [br_eq hrn, field]
    omega
  rw [decode_br hclass hzero, hregister]

/-- The word of `blr` as a sum. -/
theorem blr_eq (hrn : rn < 32) : blr rn = 0xD63F0000 + rn * 2 ^ 5 := by
  rw [blr, Nat.shiftLeft_eq]
  exact mul_or (k := 16) (by omega) 0xD63F

/-- The word of `blr` is decoded as it. -/
theorem decode_blr_word (hrn : rn < 32) : decode (blr rn) = .blr rn := by
  have hclass : field (blr rn) 10 22 = 0x358FC0 := by
    rw [blr_eq hrn, field]
    omega
  have hzero : field (blr rn) 0 5 = 0 := by
    rw [blr_eq hrn, field]
    omega
  have hregister : field (blr rn) 5 5 = rn := by
    rw [blr_eq hrn, field]
    omega
  rw [decode_blr hclass hzero, hregister]

/-- Without an offset. -/
theorem ldr_eq {rt : ℕ} (hrt : rt < 32) (hrn : rn < 32) :
    ldr rt rn 0 = 0xF9400000 + rn * 2 ^ 5 + rt := by
  have hhigh : 0x39000000 ||| (3 % 2 ^ 2 * 2 ^ 30 ||| 1 % 2 ^ 2 * 2 ^ 22) |||
      0 >>> 3 % 2 ^ 12 * 2 ^ 10 |||
      rn * 2 ^ 5 = 0xF9400000 + rn * 2 ^ 5 := mul_or (k := 16) (by omega) 0xF940
  have hlow : (0xF9400000 + rn * 2 ^ 5) ||| rt = 0xF9400000 + rn * 2 ^ 5 + rt := by
    have hmul : 0xF9400000 + rn * 2 ^ 5 = (0x7CA0000 + rn) * 2 ^ 5 := by ring
    rw [hmul]
    exact mul_or hrt _
  rw [ldr, leftShift_eq, leftShift_eq, leftShift_eq, Nat.shiftLeft_eq, hhigh, hlow]

/-- The word of a load without offset is decoded as it. -/
theorem decode_ldr_word {rt : ℕ} (hrt : rt < 32) (hrn : rn < 32) :
    decode (ldr rt rn 0) = .ldr rt rn 0 := by
  have heq := ldr_eq hrt hrn
  have hclass : field (ldr rt rn 0) 22 10 = 0b1111100101 := by
    rw [heq, field]
    omega
  have hregister : field (ldr rt rn 0) 0 5 = rt := by
    rw [heq, field]
    omega
  have hbase : field (ldr rt rn 0) 5 5 = rn := by
    rw [heq, field]
    omega
  have hoffset : field (ldr rt rn 0) 10 12 = 0 := by
    rw [heq, field]
    omega
  rw [decode_ldr hclass, hregister, hbase, hoffset]

section Mov

variable {σ : Type*} {others : ℕ → Core σ → Core σ × Flow} {c : Core σ} {a value : ℕ}

/-- The words of `Mov` by the quarters of the number. -/
theorem Mov_eq (rd value : ℕ) :
    Mov rd value = [movz rd (value % 2 ^ 16) 0, movk rd (value / 2 ^ 16 % 2 ^ 16) 16,
      movk rd (value / 2 ^ 32 % 2 ^ 16) 32, movk rd (value / 2 ^ 48) 48] := by
  have hlow : value &&& 0xffffffff = value % 2 ^ 32 := Nat.and_two_pow_sub_one_eq_mod value 32
  have hfirst : value % 2 ^ 32 &&& 0xffff = value % 2 ^ 32 % 2 ^ 16 :=
    Nat.and_two_pow_sub_one_eq_mod _ 16
  have hthird : value / 2 ^ 32 &&& 0xffff = value / 2 ^ 32 % 2 ^ 16 :=
    Nat.and_two_pow_sub_one_eq_mod _ 16
  have hquarter : value % 2 ^ 32 % 2 ^ 16 = value % 2 ^ 16 := by omega
  have hsecond : value % 2 ^ 32 / 2 ^ 16 = value / 2 ^ 16 % 2 ^ 16 := by omega
  have hfourth : value / 2 ^ 32 / 2 ^ 16 = value / 2 ^ 48 := by omega
  rw [Mov]
  simp only [hlow, hfirst, hthird, hquarter, hsecond, hfourth, Nat.shiftRight_eq_div_pow]

/-- A quarter is put into a register whose quarter there is still zero. -/
theorem exec_movk {old quarter place : ℕ} (hzero : field old place 16 = 0) (pc : ℕ) :
    exec others pc (c.set rd old) (.movk rd quarter place) =
      (c.set rd (old + quarter * 2 ^ place), .next) := by
  by_cases hrd : rd = 31
  · subst hrd
    simp [exec]
  · rw [exec, Core.get_set hrd, hzero, zero_mul, Nat.sub_zero, Core.set_set]

/-- `Mov` puts the number into the register. -/
theorem reaches_Mov (hrd : rd < 32) (hvalue : value < 2 ^ 64)
    (h : SlotsAt c.mem a ((Mov rd value).map .word)) (hend : a + 16 < 2 ^ 64) :
    Reaches others (a, c) (a + 16, c.set rd value) := by
  rw [Mov_eq] at h
  obtain ⟨hfirst, hsecond, hthird, hfourth, -⟩ := h
  have hnext : ∀ b : ℕ, b ≤ a + 12 → wrap (b + 4) = b + 4 := by
    intro b hb
    exact_mod_cast wrap_of_lt (n := b + 4) (by omega)
  have hstep1 : step others (a, c) = (a + 4, c.set rd (value % 2 ^ 16)) := by
    rw [step_word hfirst, decode_movz_word hrd (Nat.mod_lt _ (by decide)) (by decide), exec,
      hnext a (by omega), follow]
    simp
  have hstep2 : step others (a + 4, c.set rd (value % 2 ^ 16)) =
      (a + 8, c.set rd (value % 2 ^ 32)) := by
    have hvalue2 : value % 2 ^ 16 + value / 2 ^ 16 % 2 ^ 16 * 2 ^ (16 * (16 / 16)) =
        value % 2 ^ 32 := by
      omega
    rw [step_word (by rwa [Core.mem_set]),
      decode_movk_word hrd (Nat.mod_lt _ (by decide)) (by decide),
      exec_movk (by rw [field]; omega), hnext _ (by omega), follow, hvalue2]
  have hstep3 : step others (a + 8, c.set rd (value % 2 ^ 32)) =
      (a + 12, c.set rd (value % 2 ^ 48)) := by
    have hvalue3 : value % 2 ^ 32 + value / 2 ^ 32 % 2 ^ 16 * 2 ^ (16 * (32 / 16)) =
        value % 2 ^ 48 := by
      omega
    rw [step_word (by rwa [Core.mem_set]),
      decode_movk_word hrd (Nat.mod_lt _ (by decide)) (by decide),
      exec_movk (by rw [field]; omega), hnext _ (by omega), follow, hvalue3]
  have hstep4 : step others (a + 12, c.set rd (value % 2 ^ 48)) = (a + 16, c.set rd value) := by
    have hvalue4 : value % 2 ^ 48 + value / 2 ^ 48 * 2 ^ (16 * (48 / 16)) = value := by
      omega
    rw [step_word (by rwa [Core.mem_set]), decode_movk_word hrd (by omega) (by decide),
      exec_movk (by rw [field]; omega), hnext _ (by omega), follow, hvalue4]
  exact .head hstep1 (.head hstep2 (.head hstep3 (.head hstep4 .refl)))

end Mov

section Labels

/-- The word that stands at a slot before the labels are bound. -/
def placeholder : Slot → ℕ
  | .word w => w
  | .load rt _ => ldrLiteral rt 0

/-- The labels of slots, the first of which is at the place `p`. -/
def labels : ℕ → List Slot → List RelocLabel
  | _, [] => []
  | p, .word _ :: slots => labels (p + 1) slots
  | p, .load _ value :: slots => ⟨0, value, [4 * p]⟩ :: labels (p + 1) slots

/-- The assembler has emitted slots. -/
structure Emitted (asm : TurboAssembler) (slots : List Slot) : Prop where
  buffer : asm.buffer = slots.map placeholder
  data_labels : asm.data_labels = labels 0 slots

variable {asm : TurboAssembler} {slots : List Slot}

/-- The labels of two runs of slots. -/
theorem labels_append (p : ℕ) (first second : List Slot) :
    labels p (first ++ second) = labels p first ++ labels (p + first.length) second := by
  induction first generalizing p with
  | nil => rfl
  | cons slot first ih =>
    have hplace : p + 1 + first.length = p + (slot :: first).length := by
      rw [List.length_cons]
      ring
    cases slot <;> simp [labels, ih, hplace]

/-- The empty assembler has emitted nothing. -/
theorem Emitted.empty : Emitted .empty [] := ⟨rfl, rfl⟩

/-- An instruction is one slot more. -/
theorem Emitted.emit (h : Emitted asm slots) (w : ℕ) :
    Emitted (asm.Emit w) (slots ++ [.word w]) where
  buffer := by simp [TurboAssembler.Emit, h.buffer, placeholder]
  data_labels := by simp [TurboAssembler.Emit, h.data_labels, labels_append, labels]

/-- Some instructions are as many slots more. -/
theorem Emitted.emitAll (h : Emitted asm slots) (words : List ℕ) :
    Emitted (asm.EmitAll words) (slots ++ words.map .word) where
  buffer := by
    have hwords : (words.map Slot.word).map placeholder = words := by
      simp [placeholder, Function.comp_def]
    rw [TurboAssembler.EmitAll, h.buffer, List.map_append, hwords]
  data_labels := by
    have hnone : ∀ p, labels p (words.map Slot.word) = [] := by
      intro p
      induction words generalizing p with
      | nil => rfl
      | cons w words ih => exact ih (p + 1)
    rw [labels_append, hnone, List.append_nil]
    exact h.data_labels

/-- A load of a new label. -/
theorem Emitted.ldrData (h : Emitted asm slots) (rt value : ℕ) :
    Emitted (asm.LdrData rt value) (slots ++ [.load rt value]) where
  buffer := by
    simp [TurboAssembler.LdrData, TurboAssembler.AppendRelocLabel, TurboAssembler.Ldr,
      TurboAssembler.Emit, RelocLabel.withData, h.buffer, placeholder]
  data_labels := by
    have hsize : asm.buffer.length = slots.length := by rw [h.buffer, List.length_map]
    simp [TurboAssembler.LdrData, TurboAssembler.AppendRelocLabel, TurboAssembler.Ldr,
      TurboAssembler.Emit, TurboAssembler.GetBufferSize, RelocLabel.withData, h.data_labels,
      labels_append, labels, hsize]

/-- Binding puts the distance of the literal into its load. -/
theorem encode_imm19_ldrLiteral {rt ahead : ℕ} (hrt : rt < 32) (hahead : ahead < 2 ^ 19) :
    encode_imm19_offset (ldrLiteral rt 0) (4 * ahead : ℕ) = LiteralPool.ldrLiteral rt ahead := by
  have hword : ldrLiteral rt 0 = 0x58000000 + rt := by
    rw [ldrLiteral, leftShift_eq, Nat.zero_mod, Nat.zero_mul, Nat.or_zero]
    exact mul_or (k := 5) hrt 0x2C00000
  have hlt : ldrLiteral rt 0 < 2 ^ 32 := by
    rw [hword]
    omega
  have hquotient : sbits (((4 * ahead : ℕ) : ℤ) >>> (2 : ℕ)) 0 18 = ahead := by
    rw [sbits_eq, Int.shiftRight_eq_div_pow]
    omega
  have hlow : field (ldrLiteral rt 0) 0 5 = rt := by
    rw [hword, field]
    omega
  have hhigh : field (ldrLiteral rt 0) 24 8 = 0x58 := by
    rw [hword, field]
    omega
  have hbound : replace (ldrLiteral rt 0) 5 19 ahead < 2 ^ 32 := replace_lt hlt hahead (by decide)
  have hfirst : field (replace (ldrLiteral rt 0) 5 19 ahead) 0 5 = field (ldrLiteral rt 0) 0 5 :=
    field_replace_of_disjoint hlt hahead (by decide) (.inl (Nat.le_refl 5))
  have hsecond := field_replace hlt hahead (by decide : 5 + 19 ≤ 32)
  have hthird : field (replace (ldrLiteral rt 0) 5 19 ahead) 24 8 = field (ldrLiteral rt 0) 24 8 :=
    field_replace_of_disjoint hlt hahead (by decide) (.inr (Nat.le_refl 24))
  rw [hlow] at hfirst
  rw [hhigh] at hthird
  rw [encode_imm19_offset, set_bits, hquotient, ldrLiteral_eq hrt hahead]
  change replace (ldrLiteral rt 0) 5 19 ahead = _
  unfold field at hfirst hsecond hthird
  omega

/-- The label of a load is bound behind everything that is emitted. -/
theorem bindLabel_eq (front : List ℕ) {back : List ℕ} {rt n : ℕ} (value : ℕ) (hrt : rt < 32)
    (hn : n = back.length + 1) (hrange : n < 2 ^ 19) :
    TurboAssembler.bindLabel (front ++ ldrLiteral rt 0 :: back) ⟨0, value, [4 * front.length]⟩ =
      front ++ LiteralPool.ldrLiteral rt n :: back ++ [value % 2 ^ 32, value / 2 ^ 32] := by
  have hdistance :
      ((4 * (front ++ ldrLiteral rt 0 :: back).length : ℕ) : ℤ) - (4 * front.length : ℕ) =
      (4 * n : ℕ) := by
    rw [List.length_append, List.length_cons]
    omega
  have hplace : 4 * front.length / 4 = front.length := by omega
  have hword : (front ++ ldrLiteral rt 0 :: back).getD front.length 0 = ldrLiteral rt 0 := by
    simp
  rw [TurboAssembler.bindLabel, TurboAssembler.link_confused_instructions, List.foldl_cons,
    List.foldl_nil, hdistance, hplace, hword, encode_imm19_ldrLiteral hrt hrange]
  simp

/-- Binding the labels of the slots behind others that are bound, with literals of these behind. -/
theorem foldl_bindLabel (front literals : List ℕ) (hencodable : ∀ slot ∈ slots, slot.Encodable)
    (hrange : slots.length + literals.length + (pool slots).length < 2 ^ 19) :
    (labels front.length slots).foldl TurboAssembler.bindLabel
      (front ++ slots.map placeholder ++ literals) =
      front ++ code literals.length slots ++ literals ++ pool slots := by
  induction slots generalizing front literals with
  | nil => simp [labels, code, pool]
  | cons slot slots ih =>
    have hrest : ∀ s ∈ slots, s.Encodable := fun s hs => hencodable s (List.mem_cons_of_mem slot hs)
    cases slot with
    | word w =>
      rw [pool, List.length_cons] at hrange
      have hfront : (front ++ [w]).length = front.length + 1 := by simp
      have h := ih (front ++ [w]) literals hrest (by omega)
      rw [hfront] at h
      simpa [labels, code, pool, placeholder] using h
    | load rt value =>
      obtain ⟨hrt, -⟩ := hencodable _ List.mem_cons_self
      rw [pool, List.length_cons, List.length_cons, List.length_cons] at hrange
      have hback : slots.length + 1 + literals.length =
          (slots.map placeholder ++ literals).length + 1 := by
        rw [List.length_append, List.length_map]
        ring
      have hbind := bindLabel_eq front value hrt hback (by omega)
      have hfront :
          (front ++ [LiteralPool.ldrLiteral rt (slots.length + 1 + literals.length)]).length =
          front.length + 1 := by simp
      have h := ih (front ++ [LiteralPool.ldrLiteral rt (slots.length + 1 + literals.length)])
        (literals ++ [value % 2 ^ 32, value / 2 ^ 32]) hrest (by
          rw [List.length_append]
          simp only [List.length_cons, List.length_nil]
          omega)
      rw [hfront] at h
      simp only [List.append_assoc, List.cons_append] at hbind
      simp only [labels, List.foldl_cons, List.map_cons, placeholder, List.append_assoc,
        List.cons_append, hbind]
      simpa [code, pool] using h

/-- With its labels bound the buffer is the code of the slots with their pool. -/
theorem Emitted.relocBind (h : Emitted asm slots) (hencodable : ∀ slot ∈ slots, slot.Encodable)
    (hrange : (assemble slots).length < 2 ^ 19) : asm.RelocBind = assemble slots := by
  rw [length_assemble] at hrange
  have hbind := foldl_bindLabel [] [] hencodable (by simpa using hrange)
  rw [TurboAssembler.RelocBind, h.data_labels, h.buffer, assemble]
  simpa using hbind

end Labels

end XposedJniTrace.Dobby
