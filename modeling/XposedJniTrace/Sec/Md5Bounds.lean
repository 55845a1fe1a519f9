import XposedJniTrace.Sec.Md5Buffer

/-!
# What `Md5Utils::update` touches

The indices of the input that one `update` reads and those of `buffer` that it writes, for every
state of the object and every length of the 32-bit `size_type`. The test of the block loop adds a
block to its index; with less than a block of room below `2^32` the sum wraps, and the loop goes
round again behind the end of the input.
-/

namespace XposedJniTrace.Md5Utils

/-- The iterations of the block loop that a budget allows: what their blocks read of the input, and
the index at which the loop leaves. -/
def blockReads (length : UInt32) : ℕ → UInt32 → List ℕ × Option UInt32
  | 0, _ => ([], none)
  | fuel + 1, i =>
    if i + 64 ≤ length then
      (List.range' i.toNat 64 ++ (blockReads length fuel (i + 64)).1,
        (blockReads length fuel (i + 64)).2)
    else ([], some i)

/-- The indices of `input` that are read and those of `buffer` that are written. -/
structure Touched where
  reads : List ℕ
  writes : List ℕ

/-- What `update` touches before the budget runs out. -/
def touched (fuel : ℕ) (length : UInt32) (md : Md5Utils) : Touched :=
  let index := md.count0 / 8 % 64
  let firstpart := 64 - index
  if length ≥ firstpart then
    let filled := List.range' 0 firstpart.toNat ++ (blockReads length fuel firstpart).1
    match (blockReads length fuel firstpart).2 with
    | some i =>
      ⟨filled ++ List.range' i.toNat (length - i).toNat,
        List.range' index.toNat firstpart.toNat ++ List.range' 0 (length - i).toNat⟩
    | none => ⟨filled, List.range' index.toNat firstpart.toNat⟩
  else ⟨List.range' 0 length.toNat, List.range' index.toNat length.toNat⟩

/-- An update of so many bytes returns, reads nothing but its input and writes nothing behind the
end of the buffer. -/
structure StaysInside (length : UInt32) (md : Md5Utils) : Prop where
  returns : ∀ input : List UInt8, input.length = length.toNat →
    ∃ fuel last, update fuel input length md = some last
  reads : ∀ fuel, ∀ i ∈ (touched fuel length md).reads, i < length.toNat
  writes : ∀ fuel, ∀ i ∈ (touched fuel length md).writes, i ≤ 63

/-- How far the blocks of the input reach over a multiple of the block size. -/
def overhang (md : Md5Utils) : ℕ := if md.index = 0 then 64 else md.index.toNat

section Loop

variable {length : UInt32} {md : Md5Utils}

/-- The loop over the reads leaves where the block loop leaves. -/
theorem blockReads_last (input : List UInt8) (fuel : ℕ) (i : UInt32) (st : Md5.State) :
    (Loop.run (blockBody input length) fuel (i, st)).map Prod.fst =
      (blockReads length fuel i).2 := by
  induction fuel generalizing i st with
  | zero => rfl
  | succ fuel ih =>
    rw [blockReads]
    split_ifs with hmore
    · have hbody : blockBody input length (i, st) =
          .inl (i + 64, transform st (input.drop i.toNat)) := if_pos hmore
      rw [Loop.run_of_inl hbody]
      exact ih _ _
    · have hbody : blockBody input length (i, st) = .inr (i, st) := if_neg hmore
      rw [Loop.run_of_inr hbody]
      rfl

/-- An index of the loop: the blocks end at multiples of the block size, with what was buffered. -/
def Aligned (md : Md5Utils) (i : UInt32) : Prop := (i.toNat + md.index.toNat) % 64 = 0

/-- The loop starts at an aligned index. -/
theorem aligned_firstpart (md : Md5Utils) : Aligned md (64 - md.index) := by
  have hlt := index_lt md
  rw [Aligned, firstpart_toNat]
  omega

/-- The overhang is a whole block for an empty buffer, and what is buffered otherwise. -/
theorem overhang_cases (md : Md5Utils) :
    (md.index.toNat = 0 ∧ md.overhang = 64) ∨
      (0 < md.index.toNat ∧ md.overhang = md.index.toNat) := by
  rw [overhang]
  split_ifs with h
  · left
    rw [h]
    exact ⟨rfl, rfl⟩
  · right
    refine ⟨Nat.pos_of_ne_zero ?_, rfl⟩
    intro hzero
    exact h (UInt32.toNat_inj.mp hzero)

/-- With room the sum of an index of the loop and a block does not wrap. -/
theorem add_block_toNat (hroom : length.toNat + md.overhang < 2 ^ 32) {i : UInt32}
    (hi : i.toNat ≤ length.toNat) (haligned : Aligned md i) : (i + 64).toNat = i.toNat + 64 := by
  have hindex := index_lt md
  have hcases := overhang_cases md
  rw [Aligned] at haligned
  rw [UInt32.toNat_add]
  change (i.toNat + 64) % 2 ^ 32 = _
  omega

/-- With room the loop leaves at less than a block in front of the end. -/
theorem blockReads_returns (hroom : length.toNat + md.overhang < 2 ^ 32) (i : UInt32)
    (hi : i.toNat ≤ length.toNat) (haligned : Aligned md i) :
    ∃ fuel last, (blockReads length fuel i).2 = some last := by
  induction hd : length.toNat - i.toNat using Nat.strongRecOn generalizing i with
  | ind d ih =>
    have hadd := add_block_toNat hroom hi haligned
    by_cases hmore : i + 64 ≤ length
    · have hle : i.toNat + 64 ≤ length.toNat := hadd ▸ UInt32.le_iff_toNat_le.mp hmore
      have hnext : Aligned md (i + 64) := by
        rw [Aligned] at haligned ⊢
        omega
      obtain ⟨fuel, last, hlast⟩ :=
        ih (length.toNat - (i + 64).toNat) (by omega) (i + 64) (by omega)
        hnext rfl
      refine ⟨fuel + 1, last, ?_⟩
      rw [blockReads, if_pos hmore]
      exact hlast
    · refine ⟨1, i, ?_⟩
      rw [blockReads, if_neg hmore]

/-- With room the blocks are inside the input, and so is what the loop leaves over. -/
theorem blockReads_inside (hroom : length.toNat + md.overhang < 2 ^ 32) (fuel : ℕ) {i : UInt32}
    (hi : i.toNat ≤ length.toNat) (haligned : Aligned md i) :
    (∀ index ∈ (blockReads length fuel i).1, index < length.toNat) ∧
      ∀ last ∈ (blockReads length fuel i).2,
        last.toNat ≤ length.toNat ∧ length.toNat < last.toNat + 64 := by
  induction fuel generalizing i with
  | zero => simp [blockReads]
  | succ fuel ih =>
    have hadd := add_block_toNat hroom hi haligned
    rw [blockReads]
    split_ifs with hmore
    · have hle : i.toNat + 64 ≤ length.toNat := hadd ▸ UInt32.le_iff_toNat_le.mp hmore
      have hnext : Aligned md (i + 64) := by
        rw [Aligned] at haligned ⊢
        omega
      obtain ⟨hreads, hlast⟩ := ih (hadd ▸ hle) hnext
      refine ⟨?_, hlast⟩
      intro index hindex
      rcases List.mem_append.mp hindex with hhere | hlater
      · have hlt := (List.mem_range'_1.mp hhere).2
        omega
      · exact hreads index hlater
    · rw [UInt32.le_iff_toNat_le, hadd] at hmore
      refine ⟨by simp, ?_⟩
      intro last hlast
      obtain rfl : i = last := Option.some.inj hlast
      omega

/-- Without room the loop comes to a block that reaches behind the input. -/
theorem blockReads_outside (hroom : 2 ^ 32 ≤ length.toNat + md.overhang) (i : UInt32)
    (hi : i.toNat ≤ length.toNat) (haligned : Aligned md i) :
    ∃ fuel, ∃ index ∈ (blockReads length fuel i).1, length.toNat ≤ index := by
  have hindex := index_lt md
  have hcases := overhang_cases md
  have hlength := length.toNat_lt
  induction hd : length.toNat - i.toNat using Nat.strongRecOn generalizing i with
  | ind d ih =>
    have hadd : (i + 64).toNat = (i.toNat + 64) % 2 ^ 32 := UInt32.toNat_add i 64
    rw [Aligned] at haligned
    have hmore : i + 64 ≤ length := by
      rw [UInt32.le_iff_toNat_le, hadd]
      omega
    by_cases hwraps : i.toNat + 64 < 2 ^ 32
    · have hnext : Aligned md (i + 64) := by
        rw [Aligned]
        omega
      obtain ⟨fuel, index, hmem, hle⟩ := ih (length.toNat - (i + 64).toNat) (by omega) (i + 64)
        (UInt32.le_iff_toNat_le.mp hmore) hnext rfl
      refine ⟨fuel + 1, index, ?_, hle⟩
      rw [blockReads, if_pos hmore]
      exact List.mem_append_right _ hmem
    · -- the sum has wrapped, and the block is read up to the largest word at least
      refine ⟨1, i.toNat + 63, ?_, by omega⟩
      rw [blockReads, if_pos hmore]
      exact List.mem_append_left _ (List.mem_range'_1.mpr ⟨by omega, by omega⟩)

end Loop

section Update

variable {length : UInt32} {md : Md5Utils}

/-- With room an update returns. -/
theorem update_of_room (hroom : length.toNat + md.overhang < 2 ^ 32) (input : List UInt8) :
    ∃ fuel last, update fuel input length md = some last := by
  rcases Nat.lt_or_ge length.toNat (64 - md.index.toNat) with hshort | hlong
  · exact ⟨0, _, update_of_short hshort 0⟩
  · have hle : 64 - md.index ≤ length := by
      rw [UInt32.le_iff_toNat_le, firstpart_toNat]
      exact hlong
    obtain ⟨fuel, i, hi⟩ := blockReads_returns hroom (64 - md.index)
      (UInt32.le_iff_toNat_le.mp hle) (aligned_firstpart md)
    rw [← blockReads_last input fuel _ (transform md.state
      (md.buffer.memcpy md.index.toNat (input.take (64 - md.index).toNat)).bytes)] at hi
    obtain ⟨left, hleft, -⟩ := Option.map_eq_some_iff.mp hi
    exact ⟨fuel, _, by rw [update_of_ge hle, hleft, Option.bind_some]⟩

/-- What an update that does not fill the buffer touches. -/
theorem touched_of_short (h : length.toNat < 64 - md.index.toNat) (fuel : ℕ) :
    touched fuel length md =
      ⟨List.range' 0 length.toNat, List.range' md.index.toNat length.toNat⟩ := by
  have hlt : ¬ 64 - md.index ≤ length := by
    rw [UInt32.le_iff_toNat_le, firstpart_toNat]
    omega
  exact if_neg hlt

/-- What an update touches whose block loop leaves. -/
theorem touched_of_leaves (h : 64 - md.index ≤ length) {fuel : ℕ} {last : UInt32}
    (hlast : (blockReads length fuel (64 - md.index)).2 = some last) :
    touched fuel length md =
      ⟨List.range' 0 (64 - md.index).toNat ++ (blockReads length fuel (64 - md.index)).1 ++
          List.range' last.toNat (length - last).toNat,
        List.range' md.index.toNat (64 - md.index).toNat ++
          List.range' 0 (length - last).toNat⟩ := by
  rw [index] at h hlast ⊢
  simp only [touched, ge_iff_le, if_pos h, hlast]

/-- What an update touches whose block loop still goes on. -/
theorem touched_of_goes_on (h : 64 - md.index ≤ length) {fuel : ℕ}
    (hlast : (blockReads length fuel (64 - md.index)).2 = none) :
    touched fuel length md =
      ⟨List.range' 0 (64 - md.index).toNat ++ (blockReads length fuel (64 - md.index)).1,
        List.range' md.index.toNat (64 - md.index).toNat⟩ := by
  rw [index] at h hlast ⊢
  simp only [touched, ge_iff_le, if_pos h, hlast]

/-- With room an update touches nothing outside. -/
theorem touched_inside (hroom : length.toNat + md.overhang < 2 ^ 32) (fuel : ℕ) :
    (∀ i ∈ (touched fuel length md).reads, i < length.toNat) ∧
      ∀ i ∈ (touched fuel length md).writes, i ≤ 63 := by
  have hindex := index_lt md
  rcases Nat.lt_or_ge length.toNat (64 - md.index.toNat) with hshort | hlong
  · rw [touched_of_short hshort]
    constructor
    · intro i hi
      have hlt := (List.mem_range'_1.mp hi).2
      omega
    · intro i hi
      have hlt := (List.mem_range'_1.mp hi).2
      omega
  · have hfirst := firstpart_toNat md
    have hle : 64 - md.index ≤ length := by
      rw [UInt32.le_iff_toNat_le, hfirst]
      exact hlong
    obtain ⟨hreads, hlast⟩ := blockReads_inside hroom fuel (UInt32.le_iff_toNat_le.mp hle)
      (aligned_firstpart md)
    have hfilled : ∀ i ∈ List.range' 0 (64 - md.index).toNat ++
        (blockReads length fuel (64 - md.index)).1, i < length.toNat := by
      intro i hi
      rcases List.mem_append.mp hi with hhead | hblock
      · have hlt := (List.mem_range'_1.mp hhead).2
        omega
      · exact hreads i hblock
    have hbuffer : ∀ i ∈ List.range' md.index.toNat (64 - md.index).toNat, i ≤ 63 := by
      intro i hi
      have hlt := (List.mem_range'_1.mp hi).2
      omega
    cases hleft : (blockReads length fuel (64 - md.index)).2 with
    | none =>
      rw [touched_of_goes_on hle hleft]
      exact ⟨hfilled, hbuffer⟩
    | some last =>
      rw [touched_of_leaves hle hleft]
      obtain ⟨hlastLe, hlastLt⟩ := hlast last hleft
      have hsub : (length - last).toNat = length.toNat - last.toNat :=
        UInt32.toNat_sub_of_le _ _ (UInt32.le_iff_toNat_le.mpr hlastLe)
      constructor
      · intro i hi
        rcases List.mem_append.mp hi with hhead | hrest
        · exact hfilled i hhead
        · have hlt := (List.mem_range'_1.mp hrest).2
          omega
      · intro i hi
        rcases List.mem_append.mp hi with hhead | hrest
        · exact hbuffer i hhead
        · have hlt := (List.mem_range'_1.mp hrest).2
          omega

/-- Without room an update reads behind its input. -/
theorem touched_outside (hroom : 2 ^ 32 ≤ length.toNat + md.overhang) :
    ∃ fuel, ∃ i ∈ (touched fuel length md).reads, length.toNat ≤ i := by
  have hindex := index_lt md
  have hcases := overhang_cases md
  have hle : 64 - md.index ≤ length := by
    rw [UInt32.le_iff_toNat_le, firstpart_toNat]
    omega
  obtain ⟨fuel, i, hi, hout⟩ := blockReads_outside hroom (64 - md.index)
    (UInt32.le_iff_toNat_le.mp hle) (aligned_firstpart md)
  refine ⟨fuel, i, ?_, hout⟩
  cases hleft : (blockReads length fuel (64 - md.index)).2 with
  | none =>
    rw [touched_of_goes_on hle hleft]
    exact List.mem_append_right _ hi
  | some last =>
    rw [touched_of_leaves hle hleft]
    exact List.mem_append_left _ (List.mem_append_right _ hi)

/-- An update stays inside exactly when its length leaves room below `2^32` for the bytes that are
buffered, or for a block when there are none. -/
theorem staysInside_iff (length : UInt32) (md : Md5Utils) :
    StaysInside length md ↔ length.toNat + md.overhang < 2 ^ 32 := by
  constructor
  · intro h
    by_contra hroom
    obtain ⟨fuel, i, hi, hout⟩ := touched_outside (Nat.le_of_not_lt hroom)
    exact absurd (h.reads fuel i hi) (Nat.not_lt_of_le hout)
  · intro hroom
    exact ⟨fun input _ => update_of_room hroom input, fun fuel => (touched_inside hroom fuel).1,
      fun fuel => (touched_inside hroom fuel).2⟩

end Update

/-- An object that nothing was given. -/
def fresh : Md5Utils := ⟨false, Buffer.zero, 0, 0, Md5.initial, []⟩

/-- The first update of a fresh object with the largest length reads behind its input. -/
theorem largest_update : ¬ StaysInside 0xFFFFFFFF fresh := by
  intro h
  have hroom : 2 ^ 32 ≤ (0xFFFFFFFF : UInt32).toNat + fresh.overhang := by decide
  obtain ⟨fuel, i, hi, hout⟩ := touched_outside hroom
  exact absurd (h.reads fuel i hi) (Nat.not_lt_of_le hout)

end XposedJniTrace.Md5Utils
