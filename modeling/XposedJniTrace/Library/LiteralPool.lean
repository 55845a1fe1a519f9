import XposedJniTrace.Library.Arm64

/-!
# Code with a pool of literals

A piece of A64 code whose slots are words or loads of given numbers, and the words that it is put
together as: each load names a place in the pool, which is laid down behind the code. Where the
memory holds the words, each word is at its place and each load finds its number.
-/

namespace LiteralPool

open Arm64 ByteMemory WordFields

/-- A place in the code: a word, or the load of a value from the pool. -/
inductive Slot where
  | word (w : ℕ)
  | load (rt value : ℕ)
  deriving DecidableEq

/-- The load of a literal that is so many instructions ahead. -/
def ldrLiteral (rt ahead : ℕ) : ℕ := 0x58000000 ||| ahead <<< 5 ||| rt

/-- The code of slots in front of a pool: `code` words to the end of the code, `pool` words of it to
the next literal. -/
def code : ℕ → List Slot → List ℕ
  | _, [] => []
  | pool, .word w :: slots => w :: code pool slots
  | pool, .load rt _ :: slots => ldrLiteral rt (slots.length + 1 + pool) :: code (pool + 2) slots

/-- The numbers that are loaded, as words. -/
def pool : List Slot → List ℕ
  | [] => []
  | .word _ :: slots => pool slots
  | .load _ value :: slots => value % 2 ^ 32 :: value / 2 ^ 32 :: pool slots

/-- The code of the slots, with the pool behind it. -/
def assemble (slots : List Slot) : List ℕ := code 0 slots ++ pool slots

/-- A slot that can be encoded. -/
def Slot.Encodable : Slot → Prop
  | .word w => w < 2 ^ 32
  | .load rt value => rt < 32 ∧ value < 2 ^ 64

/-- What the memory has at the place of a slot. -/
def SlotAt (mem : Memory) (a : ℕ) : Slot → Prop
  | .word w => number mem a 4 = w
  | .load rt value => ∃ offset, decode (number mem a 4) = .ldrLiteral .doubleword rt offset ∧
      number mem (wrap (a + offset)) 8 = value

/-- Slots one behind the other. -/
def SlotsAt (mem : Memory) : ℕ → List Slot → Prop
  | _, [] => True
  | a, slot :: slots => SlotAt mem a slot ∧ SlotsAt mem (a + 4) slots

/-- The load of a literal as a number. -/
theorem ldrLiteral_eq {rt ahead : ℕ} (hrt : rt < 32) (hahead : ahead < 2 ^ 19) :
    ldrLiteral rt ahead = 0x58000000 + ahead * 32 + rt := by
  have hshift : ahead <<< 5 = ahead * 32 := Nat.shiftLeft_eq ahead 5
  have hfirst : 0x58000000 ||| ahead * 32 = 0x58000000 + ahead * 32 :=
    mul_or (k := 24) (by omega) 0x58
  have hmul : 0x58000000 + ahead * 32 = (0x2C00000 + ahead) * 2 ^ 5 := by ring
  rw [ldrLiteral, hshift, hfirst, hmul, mul_or hrt]

/-- The load of a literal is a word. -/
theorem ldrLiteral_lt {rt ahead : ℕ} (hrt : rt < 32) (hahead : ahead < 2 ^ 19) :
    ldrLiteral rt ahead < 2 ^ 32 := by
  rw [ldrLiteral_eq hrt hahead]
  omega

/-- A literal less than half of the range ahead is found. -/
theorem decode_ldrLiteral {rt ahead : ℕ} (hrt : rt < 32) (hahead : ahead < 2 ^ 18) :
    decode (ldrLiteral rt ahead) = .ldrLiteral .doubleword rt (4 * ahead : ℕ) := by
  have heq := ldrLiteral_eq hrt (Nat.lt_trans hahead (by decide))
  generalize ldrLiteral rt ahead = w at heq
  have hop : field w 26 5 ≠ 0b00101 := by
    rw [field]
    omega
  have hclass : field w 27 3 = 0b011 ∧ field w 24 2 = 0 := by
    rw [field, field]
    omega
  have hopc : field w 30 2 = 1 := by
    rw [field]
    omega
  have hvector : field w 26 1 = 0 := by
    rw [field]
    omega
  have hregister : field w 0 5 = rt := by
    rw [field]
    omega
  have hfield : field w 5 19 = ahead := by
    rw [field]
    omega
  have hoffset : branchOffset w 5 19 = (4 * ahead : ℕ) := by
    rw [branchOffset, hfield, signed, if_pos (by simpa using hahead)]
    push_cast
    ring
  rw [decode, if_neg hop, if_pos hclass, hopc, hvector, hregister, hoffset]
  rfl

/-- A slot has one word of code. -/
@[simp] theorem length_code (n : ℕ) (slots : List Slot) : (code n slots).length = slots.length := by
  induction slots generalizing n with
  | nil => rfl
  | cons slot slots ih => cases slot <;> simp [code, ih]

/-- A slot has at most one value in the pool. -/
theorem length_pool_le (slots : List Slot) : (pool slots).length ≤ 2 * slots.length := by
  induction slots with
  | nil => simp [pool]
  | cons slot slots ih =>
    cases slot with
    | word w => exact Nat.le_trans ih (by simp)
    | load rt value =>
      simp only [pool, List.length_cons]
      omega

/-- The words of the code and those of the pool. -/
theorem length_assemble (slots : List Slot) :
    (assemble slots).length = slots.length + (pool slots).length := by
  rw [assemble, List.length_append, length_code]

/-- Where the code and the rest of the pool are, each slot is at its place. -/
theorem slotsAt_of_holds {mem : Memory} {a n : ℕ} {slots : List Slot}
    (hencodable : ∀ slot ∈ slots, slot.Encodable)
    (hrange : slots.length + n + (pool slots).length < 2 ^ 18)
    (hend : a + 4 * (slots.length + n + (pool slots).length) ≤ 2 ^ 64)
    (hcode : Holds mem a (bytesOf (code n slots)))
    (hpool : Holds mem (a + 4 * (slots.length + n)) (bytesOf (pool slots))) :
      SlotsAt mem a slots := by
  induction slots generalizing a n with
  | nil => trivial
  | cons slot slots ih =>
    have hslot := hencodable slot List.mem_cons_self
    have hrest : ∀ s ∈ slots, s.Encodable := fun s hs => hencodable s (List.mem_cons_of_mem slot hs)
    cases slot with
    | word w =>
      rw [code] at hcode
      rw [pool] at hrange hend hpool
      rw [List.length_cons] at hrange hend hpool
      have hsplit := holds_bytesOf_cons.mp hcode
      have hplace : a + 4 * (slots.length + 1 + n) = a + 4 + 4 * (slots.length + n) := by ring
      refine ⟨number_of_holds_cons hslot hcode, ih hrest (by omega) (by omega) hsplit.2 ?_⟩
      rw [← hplace]
      exact hpool
    | load rt value =>
      obtain ⟨hrt, hvalue⟩ := hslot
      rw [code] at hcode
      rw [pool, List.length_cons, List.length_cons, List.length_cons] at hrange hend
      rw [pool, List.length_cons] at hpool
      have hword := number_of_holds_cons (ldrLiteral_lt hrt (by omega)) hcode
      have hsplit := holds_bytesOf_cons.mp hcode
      have hliteral : Holds mem (a + 4 * (slots.length + 1 + n))
          (bytesOf [value % 2 ^ 32, value / 2 ^ 32]) ∧
          Holds mem (a + 4 * (slots.length + 1 + n) + 8) (bytesOf (pool slots)) :=
        holds_bytesOf_append.mp hpool
      have hplace : a + 4 * (slots.length + 1 + n) + 8 =
          a + 4 + 4 * (slots.length + (n + 2)) := by ring
      refine ⟨⟨(4 * (slots.length + 1 + n) : ℕ), ?_, ?_⟩,
        ih hrest (by omega) (by omega) hsplit.2 ?_⟩
      · rw [hword]
        exact decode_ldrLiteral hrt (by omega)
      · have htarget : wrap (a + (4 * (slots.length + 1 + n) : ℕ)) =
          a + 4 * (slots.length + 1 + n) := by
          rw [← Nat.cast_add]
          exact wrap_of_lt (by omega)
        rw [htarget]
        rw [bytesOf_pair] at hliteral
        rw [number_of_holds hliteral.1]
        exact Nat.mod_eq_of_lt hvalue
      · rw [← hplace]
        exact hliteral.2

/-- Code that is put together and stored is there slot by slot. -/
theorem slotsAt_assemble {mem : Memory} {a : ℕ} {slots : List Slot}
    (hencodable : ∀ slot ∈ slots, slot.Encodable) (hrange : (assemble slots).length < 2 ^ 18)
    (hend : a + 4 * (assemble slots).length ≤ 2 ^ 64) (h : Holds mem a (bytesOf (assemble slots))) :
    SlotsAt mem a slots := by
  rw [length_assemble] at hrange hend
  rw [assemble, holds_bytesOf_append, length_code] at h
  exact slotsAt_of_holds (n := 0) hencodable (by omega) (by omega) h.1 h.2

/-- Plain words that are stored are there slot by slot. -/
theorem slotsAt_words {mem : Memory} {a : ℕ} {words : List ℕ} (hwords : ∀ w ∈ words, w < 2 ^ 32)
    (h : Holds mem a (bytesOf words)) : SlotsAt mem a (words.map .word) := by
  induction words generalizing a with
  | nil => trivial
  | cons w words ih =>
    exact ⟨number_of_holds_cons (hwords w List.mem_cons_self) h,
      ih (fun v hv => hwords v (List.mem_cons_of_mem w hv)) (holds_bytesOf_cons.mp h).2⟩

/-- Slots are in place one run behind the other. -/
theorem slotsAt_append {mem : Memory} {a : ℕ} {first second : List Slot} :
    SlotsAt mem a (first ++ second) ↔ SlotsAt mem a first ∧
      SlotsAt mem (a + 4 * first.length) second := by
  induction first generalizing a with
  | nil => simp [SlotsAt]
  | cons slot first ih =>
    have hplace : a + 4 + 4 * first.length = a + 4 * (slot :: first).length := by
      rw [List.length_cons]
      ring
    rw [List.cons_append, SlotsAt, SlotsAt, ih, and_assoc, hplace]

section Run

variable {σ : Type*} {others : ℕ → Core σ → Core σ × Flow} {c : Core σ} {a : ℕ}

/-- The step at a word. -/
theorem step_word {w : ℕ} (h : SlotAt c.mem a (.word w)) :
    step others (a, c) = follow (wrap (a + 4)) (exec others a c (decode w)) := step_eq h

/-- The step at a load. -/
theorem step_load {rt value : ℕ} (h : SlotAt c.mem a (.load rt value)) :
    step others (a, c) = (wrap (a + 4), c.set rt value) := by
  obtain ⟨offset, hdecode, hvalue⟩ := h
  rw [step, hdecode, exec, follow, Core.load, hvalue]

end Run

end LiteralPool
