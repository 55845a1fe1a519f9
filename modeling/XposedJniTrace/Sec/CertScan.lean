import XposedJniTrace.Sec.Cert

/-!
# The end-of-central-directory scan

What one iteration does where both of its seeks succeed, and the bound on the number of
iterations that the source's abort at the longest comment sets on every file.
-/

namespace XposedJniTrace.Cert

open Posix LittleEndian

variable {f : RegularFile}

/-- The size field is read two bytes in front of the comment the counter stands for. -/
theorem scan_commentSz {i : ℕ} (pos : ℕ) (h : 2 + i ≤ f.size) :
    f.readInto (f.lseek pos (-2 - (i : ℤ)) .fromEnd) 2 0 =
      (f.field (f.size - 2 - i) 2, f.size - i) := by
  have hsize : f.size < 2 ^ 63 := f.size_lt
  have hseek : f.lseek pos (-2 - (i : ℤ)) .fromEnd = f.size - 2 - i := by
    apply RegularFile.lseek_of_eq
    · simp only [RegularFile.seekTarget]
      omega
    · omega
  rw [hseek, RegularFile.readInto_of_le (by omega) (by norm_num)]
  congr 1
  omega

/-- The magic is read where the record would start. -/
theorem scan_magic {i : ℕ} (h : 22 + i ≤ f.size) :
    f.readInto (f.lseek (f.size - i) (-22) .cur) 4 0 =
      (f.field (f.size - 22 - i) 4, f.size - 18 - i) := by
  have hsize : f.size < 2 ^ 63 := f.size_lt
  have hseek : f.lseek (f.size - i) (-22) .cur = f.size - 22 - i := by
    apply RegularFile.lseek_of_eq
    · simp only [RegularFile.seekTarget]
      omega
    · omega
  rw [hseek, RegularFile.readInto_of_le (by omega) (by norm_num)]
  congr 1
  omega

/-- An iteration that finds a record leaves just past its magic. -/
theorem scanBody_found {i pos : ℕ} (h : 22 + i ≤ f.size)
    (hsz : f.field (f.size - 2 - i) 2 = i) (hmagic : f.field (f.size - 22 - i) 4 = eocdMagic) :
    scanBody f ⟨i, pos⟩ = .inr (some (f.size - 18 - i)) := by
  simp only [scanBody, scan_commentSz pos (show 2 + i ≤ f.size by omega), hsz, if_true,
    scan_magic h, hmagic]

/-- An iteration that finds none counts on, wherever the offset is left. -/
theorem scanBody_next {i : ℕ} (pos : ℕ) (h : 22 + i ≤ f.size) (hi : i ≠ 0xffff)
    (hnot : ¬ (f.field (f.size - 2 - i) 2 = i ∧ f.field (f.size - 22 - i) 4 = eocdMagic)) :
    ∃ pos', scanBody f ⟨i, pos⟩ = .inl ⟨i + 1, pos'⟩ := by
  simp only [scanBody, scan_commentSz pos (show 2 + i ≤ f.size by omega), scanNext, if_neg hi]
  by_cases hsz : f.field (f.size - 2 - i) 2 = i
  · have hmagic : f.field (f.size - 22 - i) 4 ≠ eocdMagic := fun hm => hnot ⟨hsz, hm⟩
    rw [if_pos hsz, scan_magic h]
    exact ⟨_, if_neg hmagic⟩
  · exact ⟨_, if_neg hsz⟩

/-- Going round counts up by one, and only below the longest comment. -/
theorem scanBody_inl {s t : ScanState} (h : scanBody f s = .inl t) :
    t.i = s.i + 1 ∧ s.i ≠ 0xffff := by
  have hnext : ∀ pos, scanNext s.i pos = .inl t → t.i = s.i + 1 ∧ s.i ≠ 0xffff := by
    intro pos hpos
    unfold scanNext at hpos
    split at hpos
    · cases hpos
    · next hi =>
      cases hpos
      exact ⟨rfl, hi⟩
  simp only [scanBody] at h
  split at h
  · split at h
    · cases h
    · exact hnext _ h
  · exact hnext _ h

/-- The scan ends on every file: each iteration uses up one of the comment lengths. -/
theorem scan_terminates (f : RegularFile) (pos : ℕ) : Loop.Terminates (scanBody f) ⟨0, pos⟩ := by
  apply Loop.terminates_of_variant (fun s => s.i ≤ 0xffff) (fun s => 0x10000 - s.i)
  · intro s t hs hst
    obtain ⟨hi, hne⟩ := scanBody_inl hst
    constructor
    · omega
    · omega
  · show (0 : ℕ) ≤ 0xffff
    omega

/-- Every file has one scan result. -/
theorem scan_returns (f : RegularFile) (pos : ℕ) :
    ∃ eocd, Loop.Returns (scanBody f) ⟨0, pos⟩ eocd :=
  scan_terminates f pos

/-- The function returns what its three parts make of the file. -/
theorem readsCertificate_iff {pos : ℕ} {junk : Uninit} {cert : List UInt8} {eocd : Option ℕ}
    (hscan : Loop.Returns (scanBody f) ⟨0, pos⟩ eocd) :
    ReadsCertificate f pos junk cert ↔
      match eocd.bind fun e => signingBlock f e junk.size8.toNat with
      | none => cert = []
      | some (pairs, signingBlkSz) =>
        Loop.Returns (pairBody f signingBlkSz junk) ⟨pairs, signingBlkSz, 0⟩ cert := by
  obtain ⟨n, hn⟩ := hscan
  constructor
  · intro hreads
    obtain ⟨fuel, hfuel⟩ := hreads
    obtain ⟨found, hfound, hrest⟩ := Option.bind_eq_some_iff.mp hfuel
    have heq : found = eocd := Loop.Returns.unique ⟨fuel, hfound⟩ ⟨n, hn⟩
    subst heq
    cases hblock : found.bind fun e => signingBlock f e junk.size8.toNat with
    | none =>
      rw [hblock] at hrest
      exact (Option.some.inj hrest).symm
    | some block =>
      rw [hblock] at hrest
      exact ⟨fuel, hrest⟩
  · intro h
    cases hblock : eocd.bind fun e => signingBlock f e junk.size8.toNat with
    | none =>
      rw [hblock] at h
      exact ⟨n, by rw [readCertificate, hn, Option.bind_some, hblock, h]⟩
    | some block =>
      rw [hblock] at h
      obtain ⟨m, hm⟩ := h
      refine ⟨max n m, ?_⟩
      rw [readCertificate, Loop.run_mono hn (Nat.le_max_left n m), Option.bind_some, hblock]
      exact Loop.run_mono hm (Nat.le_max_right n m)

end XposedJniTrace.Cert
