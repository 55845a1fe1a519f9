import XposedJniTrace.Library.FirstOf
import XposedJniTrace.Sec.CertScan

/-!
# Where the record that the scan accepts lies

Each count of the scan stands for a comment of this length at the end of the file. A count for which
the file is too short makes the seek fail, and the comment size is then read where the count before
stopped reading; with less than 22 bytes in front of that, the magic too is read where the comment
size ended. What the scan accepts there is not at the end of the file.
-/

namespace XposedJniTrace.Cert

open Posix LittleEndian

/-- A record at this offset ends, its comment included, with the file. -/
structure Anchored (f : RegularFile) (eocd : ℕ) : Prop where
  fits : eocd + 22 ≤ f.size
  comment : f.field (eocd + 20) 2 = f.size - (eocd + 22)

/-- The scan leaves its loop with the magic at this offset matched. -/
def Accepts (f : RegularFile) (pos eocd : ℕ) : Prop :=
  Loop.Returns (scanBody f) ⟨0, pos⟩ (some (eocd + 4))

/-- Behind a comment size, the offset at which its record's magic is looked for. -/
def recordOffset (stopped : ℕ) : ℕ := if 22 ≤ stopped then stopped - 22 else stopped

/-- The offset behind the comment size that is read at an offset. -/
def sizeEnd (f : RegularFile) (offset : ℕ) : ℕ := min f.size (offset + 2)

/-- The offset that a count leaves which does not match. -/
def passed (f : RegularFile) (i offset : ℕ) : ℕ :=
  if f.field offset 2 = i then min f.size (recordOffset (sizeEnd f offset) + 4)
  else sizeEnd f offset

/-- The offset at which the comment size of a count lies: in front of a comment of this length, or,
in a file that is too short for one, where the count before leaves off. -/
def commentOffset (f : RegularFile) : ℕ → ℕ
  | 0 => f.size - 2
  | i + 1 => if i + 3 ≤ f.size then f.size - (i + 3) else passed f i (commentOffset f i)

/-- The comment size of a count is the count, and the magic is where it is looked for. -/
def Matches (f : RegularFile) (i : ℕ) : Prop :=
  f.field (commentOffset f i) 2 = i ∧
    f.field (recordOffset (sizeEnd f (commentOffset f i))) 4 = eocdMagic

variable {f : RegularFile}

/-- A variable that was 0 takes the number at the offset, bytes past the end of the file being 0. -/
theorem readInto_zero_fst (offset width : ℕ) :
    (f.readInto offset width 0).1 = f.field offset width := by
  change overlay 0 (f.read offset width) = _
  rw [overlay, Nat.zero_div, Nat.zero_mul, Nat.add_zero, RegularFile.field]

/-- Inside the file a variable that was 0 takes the number at the offset, and the offset moves past
it. -/
theorem readInto_zero {offset : ℕ} (h : offset ≤ f.size) (width : ℕ) :
    f.readInto offset width 0 = (f.field offset width, min f.size (offset + width)) := by
  have hend : offset + min width (f.size - offset) = min f.size (offset + width) := by omega
  rw [← hend, ← RegularFile.readInto_snd offset width 0, ← readInto_zero_fst offset width]

/-- All four bytes of a magic are in the file. -/
theorem magic_fits {offset : ℕ} (h : f.field offset 4 = eocdMagic) : offset + 4 ≤ f.size := by
  by_contra hout
  have hlen : (f.read offset 4).length ≤ 3 := by
    rw [RegularFile.length_read]
    omega
  have hlt := decode_lt (f.read offset 4)
  have hpow : 256 ^ (f.read offset 4).length ≤ 256 ^ 3 := Nat.pow_le_pow_right (by norm_num) hlen
  rw [← RegularFile.field, h, eocdMagic] at hlt
  omega

/-- The record is looked for behind nothing that was not read. -/
theorem recordOffset_le (stopped : ℕ) : recordOffset stopped ≤ stopped := by
  rw [recordOffset]
  split_ifs
  · exact Nat.sub_le stopped 22
  · exact Nat.le_refl stopped

/-- The comment size is read inside the file. -/
theorem sizeEnd_le (offset : ℕ) : sizeEnd f offset ≤ f.size := Nat.min_le_left _ _

/-- A round of the scan leaves the offset inside the file. -/
theorem passed_le (i offset : ℕ) : passed f i offset ≤ f.size := by
  rw [passed]
  split_ifs
  · exact Nat.min_le_left _ _
  · exact sizeEnd_le offset

/-- Every round of the scan starts inside the file. -/
theorem commentOffset_le (i : ℕ) : commentOffset f i ≤ f.size := by
  cases i with
  | zero => exact Nat.sub_le f.size 2
  | succ i =>
    rw [commentOffset]
    split_ifs
    · exact Nat.sub_le f.size (i + 3)
    · exact passed_le i _

/-- The seek back over a record stays where it is when there are less than 22 bytes. -/
theorem lseek_record {stopped : ℕ} (h : stopped ≤ f.size) :
    f.lseek stopped (-22) .cur = recordOffset stopped := by
  have hsize : f.size < 2 ^ 63 := f.size_lt
  rw [recordOffset]
  split_ifs with hfits
  · apply RegularFile.lseek_of_eq
    · simp only [RegularFile.seekTarget]
      omega
    · omega
  · rw [RegularFile.lseek, if_neg]
    simp only [RegularFile.seekTarget]
    omega

/-- The offset that the scan has in front of a count when no count before matched. -/
def scanOffset (f : RegularFile) (pos : ℕ) : ℕ → ℕ
  | 0 => pos
  | i + 1 => passed f i (commentOffset f i)

/-- The seek to the comment size of a count. -/
theorem lseek_comment (hsize : 2 ≤ f.size) (pos i : ℕ) :
    f.lseek (scanOffset f pos i) (-2 - (i : ℤ)) .fromEnd = commentOffset f i := by
  have hlt : f.size < 2 ^ 63 := f.size_lt
  have hfits {i : ℕ} (h : i + 2 ≤ f.size) (pos : ℕ) :
      f.lseek pos (-2 - (i : ℤ)) .fromEnd = f.size - (i + 2) := by
    apply RegularFile.lseek_of_eq
    · simp only [RegularFile.seekTarget]
      omega
    · omega
  cases i with
  | zero => exact hfits (by omega) _
  | succ i =>
    rw [commentOffset, scanOffset]
    split_ifs with h
    · exact hfits h _
    · rw [RegularFile.lseek, if_neg]
      simp only [RegularFile.seekTarget]
      omega

/-- What a count does in a file of at least two bytes. -/
theorem scanBody_eq (hsize : 2 ≤ f.size) (pos i : ℕ) [Decidable (Matches f i)] :
    scanBody f ⟨i, scanOffset f pos i⟩ =
      if Matches f i then .inr (some (recordOffset (sizeEnd f (commentOffset f i)) + 4))
      else scanNext i (scanOffset f pos (i + 1)) := by
  have hend : recordOffset (sizeEnd f (commentOffset f i)) ≤ f.size :=
    (recordOffset_le _).trans (sizeEnd_le _)
  simp only [scanBody, lseek_comment hsize, readInto_zero (commentOffset_le i)]
  rw [← sizeEnd, lseek_record (sizeEnd_le _), readInto_zero hend]
  by_cases hcount : f.field (commentOffset f i) 2 = i
  · rw [if_pos hcount]
    by_cases hmagic : f.field (recordOffset (sizeEnd f (commentOffset f i))) 4 = eocdMagic
    · rw [if_pos hmagic, if_pos ⟨hcount, hmagic⟩, Nat.min_eq_right (magic_fits hmagic)]
    · rw [if_neg hmagic, if_neg fun h => hmagic h.2, scanOffset, passed, if_pos hcount]
  · rw [if_neg hcount, if_neg fun h => hcount h.1, scanOffset, passed, if_neg hcount]

/-- The scan leaves with a record only in a file that holds a magic. -/
theorem size_of_scanBody {s : ScanState} {found : ℕ} (h : scanBody f s = .inr (some found)) :
    4 ≤ f.size := by
  have hnext {i pos : ℕ} : scanNext i pos ≠ .inr (some found) := by
    rw [scanNext]
    split_ifs
    · intro hnone
      cases hnone
    · intro hnext
      cases hnext
  simp only [scanBody] at h
  split_ifs at h with hcount hmagic
  · rw [readInto_zero_fst] at hmagic
    have hfits := magic_fits hmagic
    omega
  · exact absurd h hnext
  · exact absurd h hnext

/-- The scan finds the first count that matches, in a file of at least two bytes. -/
theorem scan_first (hsize : 2 ≤ f.size) (pos : ℕ) :
    ∃ found, FirstOf (Matches f) 0 0x10000 found ∧
      Loop.Returns (scanBody f) ⟨0, pos⟩
        (found.elim none fun i => some (recordOffset (sizeEnd f (commentOffset f i)) + 4)) := by
  classical
  have hbody := scanBody_eq hsize pos
  have hhit : ∀ i ≤ 0xffff, Matches f i → scanBody f ⟨i, scanOffset f pos i⟩ =
      .inr (some (recordOffset (sizeEnd f (commentOffset f i)) + 4)) :=
    fun i _ h => (hbody i).trans (if_pos h)
  have hnext : ∀ i < 0xffff, ¬ Matches f i → scanBody f ⟨i, scanOffset f pos i⟩ =
      .inl ⟨i + 1, scanOffset f pos (i + 1)⟩ := by
    intro i hi h
    rw [hbody i, if_neg h, scanNext, if_neg (Nat.ne_of_lt hi)]
  have hlast : ¬ Matches f 0xffff → scanBody f ⟨0xffff, scanOffset f pos 0xffff⟩ = .inr none := by
    intro h
    rw [hbody 0xffff, if_neg h, scanNext, if_pos rfl]
  exact FirstOf.returns hhit hnext hlast (Nat.zero_add 0xffff)

/-- The scan accepts what the first count that matches makes it look at. -/
theorem accepts_iff {pos eocd : ℕ} :
    Accepts f pos eocd ↔ ∃ i ≤ 0xffff, Matches f i ∧ (∀ j < i, ¬ Matches f j) ∧
      eocd = recordOffset (sizeEnd f (commentOffset f i)) := by
  by_cases hsize : 4 ≤ f.size
  · obtain ⟨found, hfirst, hreturns⟩ := scan_first (f := f) (by omega) pos
    constructor
    · intro haccepts
      have hfound := haccepts.unique hreturns
      cases found with
      | none => cases hfound
      | some i =>
        obtain ⟨-, hlt, hmatches, hbefore⟩ := hfirst
        exact ⟨i, by omega, hmatches, fun j hj => hbefore j (Nat.zero_le j) hj,
          Nat.add_right_cancel (Option.some.inj hfound)⟩
    · intro hmatches
      obtain ⟨i, hi, hmatches, hbefore, heocd⟩ := hmatches
      cases found with
      | none => exact absurd hmatches (hfirst i (Nat.zero_le i) (by omega))
      | some j =>
        obtain ⟨-, -, hj, hfirst⟩ := hfirst
        obtain hlt | rfl | hgt := Nat.lt_trichotomy i j
        · exact absurd hmatches (hfirst i (Nat.zero_le i) hlt)
        · rw [Accepts, heocd]
          exact hreturns
        · exact absurd hj (hbefore j hgt)
  · constructor
    · intro haccepts
      obtain ⟨last, -, hlast⟩ := Loop.returns_iff_reaches.mp haccepts
      exact absurd (size_of_scanBody hlast) hsize
    · intro hmatches
      obtain ⟨i, -, hmatches, -⟩ := hmatches
      have hfits := magic_fits hmatches.2
      omega

/-- A count for which the file is long enough has its comment size in front of its comment. -/
theorem commentOffset_of_le {i : ℕ} (h : i + 2 ≤ f.size) :
    commentOffset f i = f.size - (i + 2) := by
  cases i with
  | zero => rfl
  | succ i => rw [commentOffset, if_pos h]

/-- It has its record behind 22 bytes more. -/
theorem recordOffset_of_le {i : ℕ} (h : i + 22 ≤ f.size) :
    recordOffset (sizeEnd f (commentOffset f i)) = f.size - (i + 22) := by
  have hend : sizeEnd f (f.size - (i + 2)) = f.size - i := by
    rw [sizeEnd]
    omega
  have hfits : 22 ≤ f.size - i := by omega
  rw [commentOffset_of_le (by omega), hend, recordOffset, if_pos hfits, Nat.sub_sub]

/-- A match of a count for which the file has room is a record at its end. -/
theorem Matches.anchored {i : ℕ} (hmatches : Matches f i) (h : i + 22 ≤ f.size) :
    Anchored f (recordOffset (sizeEnd f (commentOffset f i))) := by
  have hcount := hmatches.1
  rw [commentOffset_of_le (by omega)] at hcount
  rw [recordOffset_of_le h]
  refine ⟨by omega, ?_⟩
  have hoffset : f.size - (i + 22) + 20 = f.size - (i + 2) := by omega
  rw [hoffset, hcount]
  omega

/-- A record at the end of the file makes the count of its comment match. -/
theorem Anchored.matches {eocd : ℕ} (h : Anchored f eocd) (hmagic : f.field eocd 4 = eocdMagic) :
    Matches f (f.size - (eocd + 22)) := by
  have hfits := h.fits
  have hroom : f.size - (eocd + 22) + 22 ≤ f.size := by omega
  have hcomment : f.size - (f.size - (eocd + 22) + 2) = eocd + 20 := by omega
  have hrecord : f.size - (f.size - (eocd + 22) + 22) = eocd := by omega
  refine ⟨?_, ?_⟩
  · rw [commentOffset_of_le (by omega), hcomment]
    exact h.comment
  · rw [recordOffset_of_le hroom, hrecord]
    exact hmagic

/-- The comment of a record at the end of the file has a length that the scan comes to. -/
theorem Anchored.comment_lt {eocd : ℕ} (h : Anchored f eocd) : f.size - (eocd + 22) < 0x10000 := by
  have hfits := h.fits
  have hlt := decode_lt (f.read (eocd + 20) 2)
  rw [RegularFile.length_read_of_le (by omega), ← RegularFile.field, h.comment] at hlt
  exact hlt

/-- The scan accepts what the first count makes it look at that matches, no later than any other. -/
theorem Matches.accepted {i : ℕ} (h : Matches f i) (hi : i ≤ 0xffff) (pos : ℕ) :
    ∃ j ≤ i, Matches f j ∧ Accepts f pos (recordOffset (sizeEnd f (commentOffset f j))) := by
  classical
  have hany : ∃ j, Matches f j := ⟨i, h⟩
  have hle : Nat.find hany ≤ i := Nat.find_min' hany h
  have hbefore : ∀ j < Nat.find hany, ¬ Matches f j := fun j hj => Nat.find_min hany hj
  exact ⟨_, hle, Nat.find_spec hany,
    accepts_iff.mpr ⟨_, hle.trans hi, Nat.find_spec hany, hbefore, rfl⟩⟩

/-- In a file with a record at its end, the scan accepts one there. -/
theorem Anchored.accepted {eocd : ℕ} (h : Anchored f eocd) (hmagic : f.field eocd 4 = eocdMagic)
    (pos : ℕ) : ∃ record, Accepts f pos record ∧ Anchored f record := by
  have hfits := h.fits
  have hlt := h.comment_lt
  obtain ⟨j, hle, hmatches, haccepts⟩ := (h.matches hmagic).accepted (by omega) pos
  exact ⟨_, haccepts, hmatches.anchored (by omega)⟩

/-- Whatever the scan accepts in a file is at its end exactly when the file has a record at its end,
or no count matches. -/
theorem anchored_iff (f : RegularFile) (pos : ℕ) :
    (∀ eocd, Accepts f pos eocd → Anchored f eocd) ↔
      (∃ eocd, Anchored f eocd ∧ f.field eocd 4 = eocdMagic) ∨ ∀ i ≤ 0xffff, ¬ Matches f i := by
  constructor
  · intro hall
    by_cases hany : ∃ i ≤ 0xffff, Matches f i
    · obtain ⟨i, hi, hmatches⟩ := hany
      obtain ⟨j, -, hfirst, haccepts⟩ := hmatches.accepted hi pos
      exact .inl ⟨_, hall _ haccepts, hfirst.2⟩
    · exact .inr fun i hi hmatches => hany ⟨i, hi, hmatches⟩
  · intro hcondition eocd haccepts
    obtain ⟨i, hi, hmatches, hbefore, rfl⟩ := accepts_iff.mp haccepts
    obtain ⟨record, hanchored, hmagic⟩ | hnone := hcondition
    · -- the count of the record at the end matches, so the scan stops no later than there
      have hle : i ≤ f.size - (record + 22) := by
        by_contra hgt
        exact hbefore _ (by omega) (hanchored.matches hmagic)
      have hfits := hanchored.fits
      exact hmatches.anchored (by omega)
    · exact absurd hmatches (hnone i hi)

/-- In a file that is longer than any record, what the scan accepts is at its end. -/
theorem anchored_of_size {pos eocd : ℕ} (hsize : 65557 ≤ f.size) (haccepts : Accepts f pos eocd) :
    Anchored f eocd := by
  obtain ⟨i, hi, hmatches, -, rfl⟩ := accepts_iff.mp haccepts
  exact hmatches.anchored (by omega)

/-- A file of six bytes: the number 4 and a magic. -/
def sixBytes : RegularFile := ⟨[0x04, 0x00, 0x50, 0x4b, 0x05, 0x06], by decide⟩

/-- The seek back over the record fails, and the magic behind the number is accepted. -/
theorem six_bytes_accepted : ¬ ∀ eocd, Accepts sixBytes 0 eocd → Anchored sixBytes eocd := by
  intro h
  have haccepts : Accepts sixBytes 0 2 := ⟨5, by decide⟩
  exact absurd (h 2 haccepts).fits (by decide)

end XposedJniTrace.Cert
