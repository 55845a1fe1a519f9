import Mathlib.Data.List.Basic

/-!
# Absorbing a message block by block

An iterated compression over the whole blocks of a message, the remainder that is left
behind them, and how both behave when a message arrives in pieces: absorbing a piece, keeping
its remainder, and putting it in front of the next piece is absorbing the concatenation.
-/

namespace BlockStream

variable {σ α : Type*} (compress : σ → List α → σ) (n : ℕ)

/-- Absorb the given number of blocks from the front of a message. -/
def absorbBlocks : ℕ → σ → List α → σ
  | 0, st, _ => st
  | k + 1, st, msg => absorbBlocks k (compress st (msg.take n)) (msg.drop n)

/-- Absorb every whole block of a message. -/
def absorb (st : σ) (msg : List α) : σ :=
  absorbBlocks compress n (msg.length / n) st msg

/-- What is left of a message behind its whole blocks. -/
def remainder (msg : List α) : List α :=
  msg.drop (n * (msg.length / n))

variable {compress n} {st : σ}

/-- A property of messages follows from the short ones by putting blocks in front. -/
theorem block_induction {P : List α → Prop} (hn : 0 < n) (short : ∀ msg, msg.length < n → P msg)
    (block : ∀ b rest, b.length = n → P rest → P (b ++ rest)) (msg : List α) : P msg := by
  induction hlen : msg.length using Nat.strongRecOn generalizing msg with
  | ind len ih =>
    rcases Nat.lt_or_ge msg.length n with hlt | hge
    · exact short msg hlt
    · have hrest : P (msg.drop n) := by
        apply ih (msg.drop n).length
        · rw [List.length_drop]
          omega
        · rfl
      have htake : (msg.take n).length = n := List.length_take_of_le hge
      have h := block (msg.take n) (msg.drop n) htake hrest
      rwa [List.take_append_drop] at h

/-- A message shorter than a block leaves the state alone. -/
theorem absorb_of_lt {msg : List α} (h : msg.length < n) : absorb compress n st msg = st := by
  rw [absorb, Nat.div_eq_of_lt h, absorbBlocks]

/-- A message shorter than a block is its own remainder. -/
theorem remainder_of_lt {msg : List α} (h : msg.length < n) : remainder n msg = msg := by
  rw [remainder, Nat.div_eq_of_lt h, Nat.mul_zero, List.drop_zero]

/-- A block at the front is compressed first. -/
theorem absorb_block {b rest : List α} (hn : 0 < n) (hb : b.length = n) :
    absorb compress n st (b ++ rest) = absorb compress n (compress st b) rest := by
  have hcount : (b ++ rest).length / n = rest.length / n + 1 := by
    rw [List.length_append, hb, Nat.add_div_left _ hn]
  rw [absorb, hcount, absorbBlocks, ← hb, List.take_left, List.drop_left, absorb]

/-- A block at the front is not part of the remainder. -/
theorem remainder_block {b rest : List α} (hn : 0 < n) (hb : b.length = n) :
    remainder n (b ++ rest) = remainder n rest := by
  have hcount : (b ++ rest).length / n = rest.length / n + 1 := by
    rw [List.length_append, hb, Nat.add_div_left _ hn]
  rw [remainder, hcount, Nat.mul_add, Nat.mul_one, Nat.add_comm, ← List.drop_drop, remainder]
  congr 1
  rw [← hb, List.drop_left]

/-- The first block of a long message is compressed first. -/
theorem absorb_of_ge {msg : List α} (hn : 0 < n) (h : n ≤ msg.length) :
    absorb compress n st msg = absorb compress n (compress st (msg.take n)) (msg.drop n) := by
  rw [← absorb_block hn (List.length_take_of_le h), List.take_append_drop]

/-- The first block of a long message is not part of the remainder. -/
theorem remainder_of_ge {msg : List α} (hn : 0 < n) (h : n ≤ msg.length) :
    remainder n msg = remainder n (msg.drop n) := by
  conv_lhs => rw [← List.take_append_drop n msg]
  exact remainder_block hn (List.length_take_of_le h)

/-- The remainder has the length that division by the block size leaves. -/
theorem length_remainder (msg : List α) : (remainder n msg).length = msg.length % n := by
  rw [remainder, List.length_drop, Nat.mod_def]

/-- Absorbing a concatenation in two pieces, the first remainder in front of the second. -/
theorem absorb_append (hn : 0 < n) (first second : List α) :
    absorb compress n st (first ++ second) =
      absorb compress n (absorb compress n st first) (remainder n first ++ second) := by
  induction first using block_induction hn generalizing st with
  | short first h => rw [absorb_of_lt h, remainder_of_lt h]
  | block b rest hb ih =>
    rw [List.append_assoc, absorb_block hn hb, ih, absorb_block hn hb, remainder_block hn hb]

/-- The remainder of a concatenation is that of the first remainder in front of the second. -/
theorem remainder_append (hn : 0 < n) (first second : List α) :
    remainder n (first ++ second) = remainder n (remainder n first ++ second) := by
  induction first using block_induction hn with
  | short first h => rw [remainder_of_lt h]
  | block b rest hb ih => rw [List.append_assoc, remainder_block hn hb, ih, remainder_block hn hb]

end BlockStream
