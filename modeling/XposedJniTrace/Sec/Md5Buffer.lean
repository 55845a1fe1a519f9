import XposedJniTrace.Sec.Md5Transform

/-!
# Buffering in `Md5Utils`

What one `update` does to an object that holds a message: the bytes behind its last whole block
are at the front of `buffer`, the counter holds the number of bits modulo `2^64` in two words,
and `state` is the compression of the whole blocks. The block loop ends, and stays inside its
input, as long as the length leaves one block of room below `2^32`.
-/

namespace XposedJniTrace.Md5Utils

open BlockStream

/-- A length that leaves one block of room, so that `i + blocksize` does not wrap. -/
def maxLength : ℕ := 2 ^ 32 - 64

/-- Copied bytes stand behind the bytes that were in front of them. -/
theorem take_memcpy {buffer : Buffer} {index : ℕ} {src : List UInt8}
    (h : index + src.length ≤ 64) :
    (buffer.memcpy index src).bytes.take (index + src.length) = buffer.bytes.take index ++ src := by
  have hlen : (buffer.bytes.take index ++ src).length = index + src.length := by
    rw [List.length_append, List.length_take, buffer.length_eq]
    omega
  rw [Buffer.memcpy, List.take_take, Nat.min_eq_left h, List.take_append_of_le_length (by omega),
    ← hlen, List.take_length]

/-- Bytes copied up to the end fill the buffer. -/
theorem memcpy_full {buffer : Buffer} {index : ℕ} {src : List UInt8}
    (h : index + src.length = 64) :
    (buffer.memcpy index src).bytes = buffer.bytes.take index ++ src := by
  have hfull : (buffer.memcpy index src).bytes.take (index + src.length) =
      buffer.bytes.take index ++ src :=
    take_memcpy (Nat.le_of_eq h)
  rwa [h, List.take_of_length_le (Nat.le_of_eq (buffer.memcpy index src).length_eq)] at hfull

/-- The block loop absorbs the whole blocks of its input and stops at their remainder. -/
theorem blockBody_returns {input : List UInt8} {length : UInt32}
    (hlen : length.toNat ≤ input.length) (hmax : length.toNat < maxLength) (i : UInt32)
    (st : Md5.State) (hi : i.toNat ≤ length.toNat) :
    ∃ last : UInt32, last.toNat ≤ length.toNat ∧
      (input.take length.toNat).drop last.toNat =
        remainder 64 ((input.take length.toNat).drop i.toNat) ∧
      Loop.Returns (blockBody input length) (i, st)
        (last, absorb Md5.compress 64 st ((input.take length.toNat).drop i.toNat)) := by
  unfold maxLength at hmax
  induction hd : length.toNat - i.toNat using Nat.strongRecOn generalizing i st with
  | ind d ih =>
    have hadd : (i + 64).toNat = i.toNat + 64 := by
      rw [UInt32.toNat_add]
      change (i.toNat + 64) % 2 ^ 32 = _
      omega
    have hrest : ((input.take length.toNat).drop i.toNat).length = length.toNat - i.toNat := by
      rw [List.length_drop, List.length_take]
      omega
    by_cases hmore : i + 64 ≤ length
    · have hle : i.toNat + 64 ≤ length.toNat := hadd ▸ UInt32.le_iff_toNat_le.mp hmore
      have hbody : blockBody input length (i, st) =
          .inl (i + 64, transform st (input.drop i.toNat)) := if_pos hmore
      have hblock : (input.drop i.toNat).take 64 =
          ((input.take length.toNat).drop i.toNat).take 64 := by
        rw [List.drop_take, List.take_take, Nat.min_eq_left (by omega)]
      obtain ⟨last, hlast, hrem, hret⟩ := ih (length.toNat - (i + 64).toNat) (by omega) (i + 64)
        (transform st (input.drop i.toNat)) (by omega) rfl
      rw [hadd, ← List.drop_drop] at hrem hret
      refine ⟨last, hlast, ?_, ?_⟩
      · rw [hrem, ← remainder_of_ge (by omega) (by omega)]
      · rw [Loop.returns_of_inl hbody, absorb_of_ge (by omega) (by omega), ← hblock,
          ← transform_eq_compress (by rw [List.length_drop]; omega)]
        exact hret
    · have hlt : length.toNat < i.toNat + 64 := by
        rw [UInt32.le_iff_toNat_le, hadd] at hmore
        omega
      have hbody : blockBody input length (i, st) = .inr (i, st) := if_neg hmore
      refine ⟨i, hi, ?_, ?_⟩
      · rw [remainder_of_lt (by omega)]
      · rw [absorb_of_lt (by omega), Loop.returns_of_inr hbody]

/-- The number of bytes in the buffer, as `update` takes it from the counter. -/
def index (md : Md5Utils) : UInt32 := md.count0 / 8 % 64

/-- The buffer is never full between two calls. -/
theorem index_lt (md : Md5Utils) : md.index.toNat < 64 := by
  rw [index, UInt32.toNat_mod]
  exact Nat.mod_lt _ (by decide)

/-- The room in the buffer does not wrap. -/
theorem firstpart_toNat (md : Md5Utils) : (64 - md.index).toNat = 64 - md.index.toNat := by
  have h := index_lt md
  apply UInt32.toNat_sub_of_le
  rw [UInt32.le_iff_toNat_le]
  exact Nat.le_of_lt h

/-- The object with the bits of more bytes counted. -/
def counted (length : UInt32) (md : Md5Utils) : Md5Utils :=
  { md with
    count0 := (addCount md.count0 md.count1 length).1
    count1 := (addCount md.count0 md.count1 length).2 }

/-- An input that does not fill the buffer is only stored. -/
theorem update_of_short {input : List UInt8} {length : UInt32} {md : Md5Utils}
    (h : length.toNat < 64 - md.index.toNat) (fuel : ℕ) :
    update fuel input length md =
      some { md.counted length with
        buffer := md.buffer.memcpy md.index.toNat (input.take length.toNat) } := by
  have hlt : ¬ 64 - md.index ≤ length := by
    rw [UInt32.le_iff_toNat_le, firstpart_toNat]
    omega
  exact if_neg hlt

/-- An input that fills the buffer goes through the block loop. -/
theorem update_of_ge {input : List UInt8} {length : UInt32} {md : Md5Utils}
    (h : 64 - md.index ≤ length) (fuel : ℕ) :
    update fuel input length md =
      (Loop.run (blockBody input length) fuel (64 - md.index, transform md.state
        (md.buffer.memcpy md.index.toNat (input.take (64 - md.index).toNat)).bytes)).bind fun r =>
        some { md.counted length with
          buffer := (md.buffer.memcpy md.index.toNat (input.take (64 - md.index).toNat)).memcpy 0
            ((input.drop r.1.toNat).take (length - r.1).toNat)
          state := r.2 } :=
  if_pos h

/-- An input that fills the buffer: the buffer is compressed, then the whole blocks of the rest of
the input, and what is left is stored. -/
theorem update_of_long {input : List UInt8} {length : UInt32} {md : Md5Utils}
    (hlen : length.toNat ≤ input.length) (hmax : length.toNat < maxLength)
    (h : 64 - md.index.toNat ≤ length.toNat) :
    let buffer := md.buffer.memcpy md.index.toNat (input.take (64 - md.index.toNat))
    let rest := (input.take length.toNat).drop (64 - md.index.toNat)
    ∃ fuel, update fuel input length md =
      some { md.counted length with
        buffer := buffer.memcpy 0 (remainder 64 rest)
        state := absorb Md5.compress 64 (Md5.compress md.state buffer.bytes) rest } := by
  intro buffer rest
  have hle : 64 - md.index ≤ length := by
    rw [UInt32.le_iff_toNat_le, firstpart_toNat]
    omega
  have hcompress : transform md.state buffer.bytes = Md5.compress md.state buffer.bytes := by
    rw [transform_eq_compress (Nat.le_of_eq buffer.length_eq.symm),
      List.take_of_length_le (Nat.le_of_eq buffer.length_eq)]
  obtain ⟨last, hlast, hrem, fuel, hrun⟩ := blockBody_returns hlen hmax (64 - md.index)
    (transform md.state buffer.bytes) (UInt32.le_iff_toNat_le.mp hle)
  have hsub : (length - last).toNat = length.toNat - last.toNat :=
    UInt32.toNat_sub_of_le _ _ (UInt32.le_iff_toNat_le.mpr hlast)
  have hbuffer : md.buffer.memcpy md.index.toNat (input.take (64 - md.index).toNat) = buffer := by
    rw [firstpart_toNat]
  refine ⟨fuel, ?_⟩
  rw [update_of_ge hle, hbuffer, hrun, Option.bind_some, hsub, ← List.drop_take, hrem,
    firstpart_toNat, hcompress]

/-- An update returns, whatever the object holds. -/
theorem update_returns {input : List UInt8} {length : UInt32} (hlen : length.toNat ≤ input.length)
    (hmax : length.toNat < maxLength) (md : Md5Utils) :
    ∃ fuel last, update fuel input length md = some last := by
  rcases Nat.lt_or_ge length.toNat (64 - md.index.toNat) with hshort | hlong
  · exact ⟨0, _, update_of_short hshort 0⟩
  · obtain ⟨fuel, h⟩ := update_of_long hlen hmax hlong
    exact ⟨fuel, _, h⟩

/-- An unfinished object holds a message: its whole blocks are compressed, the bytes behind them
are in the buffer, and its bits are counted modulo `2^64`. -/
structure Holds (msg : List UInt8) (md : Md5Utils) : Prop where
  finalized : md.finalized = false
  count : md.count0.toNat + 2 ^ 32 * md.count1.toNat = 8 * msg.length % 2 ^ 64
  state : md.state = absorb Md5.compress 64 Md5.initial msg
  buffer : md.buffer.bytes.take (msg.length % 64) = remainder 64 msg

/-- The two words of the counter, with the carry that `update` makes by hand. -/
theorem addCount_eq {count0 count1 length : UInt32} {n : ℕ}
    (h : count0.toNat + 2 ^ 32 * count1.toNat = 8 * n % 2 ^ 64) :
    (addCount count0 count1 length).1.toNat + 2 ^ 32 * (addCount count0 count1 length).2.toNat =
      8 * (n + length.toNat) % 2 ^ 64 := by
  have h0 := count0.toNat_lt
  have h1 := count1.toNat_lt
  have hl := length.toNat_lt
  have hshift : (length <<< 3).toNat = 8 * length.toNat % 2 ^ 32 := by
    rw [UInt32.toNat_shiftLeft, Nat.shiftLeft_eq, Nat.mul_comm]
    rfl
  have hhigh : (length >>> 29).toNat = length.toNat / 2 ^ 29 := by
    rw [UInt32.toNat_shiftRight, Nat.shiftRight_eq_div_pow]
    rfl
  have hlow : (count0 + length <<< 3).toNat =
      (count0.toNat + 8 * length.toNat % 2 ^ 32) % 2 ^ 32 := by
    rw [UInt32.toNat_add, hshift]
  simp only [addCount]
  split_ifs with hcarry
  · rw [UInt32.lt_iff_toNat_lt, hlow, hshift] at hcarry
    rw [hlow, UInt32.toNat_add, UInt32.toNat_add, hhigh]
    change _ + 2 ^ 32 * (((count1.toNat + 1) % 2 ^ 32 + _) % 2 ^ 32) = _
    omega
  · rw [UInt32.lt_iff_toNat_lt, hlow, hshift] at hcarry
    rw [hlow, UInt32.toNat_add, hhigh]
    omega

/-- The index in the buffer is the length of the message modulo the block size. -/
theorem Holds.index_eq {msg : List UInt8} {md : Md5Utils} (h : Holds msg md) :
    md.index.toNat = msg.length % 64 := by
  have hcount := h.count
  have h0 := md.count0.toNat_lt
  rw [index, UInt32.toNat_mod, UInt32.toNat_div]
  change md.count0.toNat / 8 % 64 = _
  omega

/-- An update that does not fill the buffer appends its input to the message. -/
theorem holds_of_short {msg chunk : List UInt8} {length : UInt32} {md : Md5Utils}
    (h : Holds msg md) (hlen : chunk.length = length.toNat)
    (hshort : length.toNat < 64 - md.index.toNat) :
    Holds (msg ++ chunk) { md.counted length with
      buffer := md.buffer.memcpy md.index.toNat chunk } := by
  have hindex := h.index_eq
  have hlt : (remainder 64 msg ++ chunk).length < 64 := by
    rw [List.length_append, length_remainder]
    omega
  refine ⟨h.finalized, ?_, ?_, ?_⟩
  · rw [List.length_append, hlen]
    exact addCount_eq h.count
  · rw [absorb_append (by omega), absorb_of_lt hlt]
    exact h.state
  · have hmod : (msg ++ chunk).length % 64 = md.index.toNat + chunk.length := by
      rw [List.length_append]
      omega
    rw [hmod, take_memcpy (by omega), hindex, h.buffer, remainder_append (by omega),
      remainder_of_lt hlt]

/-- An update that fills the buffer appends its input to the message. -/
theorem holds_of_long {msg src rest : List UInt8} {length : UInt32} {md : Md5Utils}
    (h : Holds msg md) (hlen : (src ++ rest).length = length.toNat)
    (hsrc : md.index.toNat + src.length = 64) :
    Holds (msg ++ (src ++ rest)) { md.counted length with
      buffer := (md.buffer.memcpy md.index.toNat src).memcpy 0 (remainder 64 rest)
      state := absorb Md5.compress 64
        (Md5.compress md.state (md.buffer.memcpy md.index.toNat src).bytes) rest } := by
  have hindex := h.index_eq
  have hfill : (md.buffer.memcpy md.index.toNat src).bytes = remainder 64 msg ++ src := by
    rw [memcpy_full hsrc, hindex, h.buffer]
  have hblock : (remainder 64 msg ++ src).length = 64 := by
    rw [← hfill, Buffer.length_eq]
  have hrem : remainder 64 (msg ++ (src ++ rest)) = remainder 64 rest := by
    rw [remainder_append (by omega), ← List.append_assoc, remainder_block (by omega) hblock]
  refine ⟨h.finalized, ?_, ?_, ?_⟩
  · rw [List.length_append, hlen]
    exact addCount_eq h.count
  · rw [absorb_append (by omega), ← List.append_assoc, absorb_block (by omega) hblock, ← hfill,
      ← h.state]
  · have hmod : (msg ++ (src ++ rest)).length % 64 = 0 + (remainder 64 rest).length := by
      rw [← length_remainder, hrem, Nat.zero_add]
    have hle : (remainder 64 rest).length < 64 := by
      rw [length_remainder]
      exact Nat.mod_lt _ (by omega)
    rw [hmod, take_memcpy (by omega), List.take_zero, List.nil_append, hrem]

/-- An update appends its input to the message. -/
theorem update_holds {msg input : List UInt8} {length : UInt32} {md : Md5Utils} (h : Holds msg md)
    (hlen : length.toNat ≤ input.length) (hmax : length.toNat < maxLength) :
    ∃ fuel last, update fuel input length md = some last ∧
      Holds (msg ++ input.take length.toNat) last := by
  have htake : (input.take length.toNat).length = length.toNat := List.length_take_of_le hlen
  rcases Nat.lt_or_ge length.toNat (64 - md.index.toNat) with hshort | hlong
  · exact ⟨0, _, update_of_short hshort 0, holds_of_short h htake hshort⟩
  · obtain ⟨fuel, hrun⟩ := update_of_long hlen hmax hlong
    have hsplit : input.take length.toNat = input.take (64 - md.index.toNat) ++
        (input.take length.toNat).drop (64 - md.index.toNat) := by
      conv_lhs => rw [← List.take_append_drop (64 - md.index.toNat) (input.take length.toNat)]
      rw [List.take_take, Nat.min_eq_left hlong]
    have hfirst : md.index.toNat + (input.take (64 - md.index.toNat)).length = 64 := by
      have := index_lt md
      rw [List.length_take_of_le (by omega)]
      omega
    refine ⟨fuel, _, hrun, ?_⟩
    rw [hsplit] at htake
    have hnew := holds_of_long h htake hfirst
    rwa [← hsplit] at hnew

end XposedJniTrace.Md5Utils
