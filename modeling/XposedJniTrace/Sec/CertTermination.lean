import XposedJniTrace.Library.Orbit
import XposedJniTrace.Sec.CertScan

/-!
# When `read_certificate` returns

The scan always ends, so the pair loop decides. Its exits are a length equal to the block
size and the v2 id; a length below four, or one that is negative as an offset, moves back,
and one past the end of the file is never looked at again. The hops that the stored lengths
make are a function of the file alone once an id that is not wholly in the file is taken not
to match, which is what an uninitialised variable may always do.
-/

namespace XposedJniTrace.Cert

open Posix LittleEndian

variable {f : RegularFile} {S : ℕ}

/-- From an offset and the last length to the next: read a length, pass over the id, skip. -/
def hop (f : RegularFile) (h : ℕ × ℕ) : ℕ × ℕ :=
  let size8 := f.readInto h.1 8 h.2
  (skipPair f (size8.2 + (f.read size8.2 4).length) size8.1, size8.1)

/-- A header that ends the walk: its length is the block size, or its whole id is the v2 id. -/
def StopsAt (f : RegularFile) (S : ℕ) (h : ℕ × ℕ) : Prop :=
  (f.readInto h.1 8 h.2).1 = S ∨
    ((f.readInto h.1 8 h.2).2 + 4 ≤ f.size ∧
      f.field (f.readInto h.1 8 h.2).2 4 = signatureSchemeV2Magic)

instance (f : RegularFile) (S : ℕ) (h : ℕ × ℕ) : Decidable (StopsAt f S h) :=
  inferInstanceAs (Decidable (_ ∨ _))

/-- The checks in front of the pair loop let it start at `pairs` in a block of size `S`. -/
def EntersPairs (f : RegularFile) (pos pairs S : ℕ) : Prop :=
  ∃ eocd, ∃ junk : UInt64, Loop.Returns (scanBody f) ⟨0, pos⟩ (some eocd) ∧
    signingBlock f eocd junk.toNat = some (pairs, S)

/-- A block size is the value of a 64-bit variable. -/
theorem signingBlock_size_lt {pos size8 pairs : ℕ} (hold : size8 < 2 ^ 64)
    (h : signingBlock f pos size8 = some (pairs, S)) : S < 2 ^ 64 := by
  simp only [signingBlock] at h
  split at h
  · cases h
  · split at h
    · cases h
    · obtain ⟨-, rfl⟩ := Prod.mk.inj (Option.some.inj h)
      exact RegularFile.readInto_fst_lt 8 hold

/-- A stop ends the walk whatever the uninitialised locals hold. -/
theorem pairBody_of_stopsAt (junk : Uninit) {h : ℕ × ℕ} (iter : ℕ) (hstop : StopsAt f S h) :
    ∃ cert, pairBody f S junk ⟨h.1, h.2, iter⟩ = .inr cert := by
  rcases hstop with hsize | ⟨hle, hid⟩
  · exact ⟨[], by simp only [pairBody, hsize, if_true]⟩
  · by_cases hsize : (f.readInto h.1 8 h.2).1 = S
    · exact ⟨[], by simp only [pairBody, hsize, if_true]⟩
    · have hjunk : (junk.id iter).toNat < 256 ^ 4 := (junk.id iter).toNat_lt
      simp only [pairBody, if_neg hsize, RegularFile.readInto_of_le hle hjunk, hid, if_true]
      exact ⟨_, rfl⟩

/-- Away from a stop the walk hops on or is ended by the value of an uninitialised id. -/
theorem pairBody_inl_or_inr (junk : Uninit) (h : ℕ × ℕ) (iter : ℕ) :
    (∃ cert, pairBody f S junk ⟨h.1, h.2, iter⟩ = .inr cert) ∨
      pairBody f S junk ⟨h.1, h.2, iter⟩ = .inl ⟨(hop f h).1, (hop f h).2, iter + 1⟩ := by
  simp only [pairBody, hop, RegularFile.readInto_offset _ 4]
  split
  · exact .inl ⟨_, rfl⟩
  · split
    · exact .inl ⟨_, rfl⟩
    · exact .inr rfl

/-- Three bytes or fewer over a zero variable never make up the v2 id. -/
theorem partial_id_ne {pos : ℕ} (h : ¬ pos + 4 ≤ f.size) :
    (f.readInto pos 4 0).1 ≠ signatureSchemeV2Magic := by
  have hlen : (f.read pos 4).length ≤ 3 := by
    rw [RegularFile.length_read]
    omega
  have hlt := decode_lt (f.read pos 4)
  have hpow : 256 ^ (f.read pos 4).length ≤ 256 ^ 3 := Nat.pow_le_pow_right (by norm_num) hlen
  have hval : (f.readInto pos 4 0).1 = decode (f.read pos 4) := by
    simp [RegularFile.readInto, overlay]
  rw [hval, signatureSchemeV2Magic]
  omega

/-- With a zero in the uninitialised id the walk hops on from everything that is no stop. -/
theorem pairBody_of_zero_id {junk : Uninit} {h : ℕ × ℕ} (iter : ℕ) (hzero : junk.id iter = 0)
    (hstop : ¬ StopsAt f S h) :
    pairBody f S junk ⟨h.1, h.2, iter⟩ = .inl ⟨(hop f h).1, (hop f h).2, iter + 1⟩ := by
  have hsize : (f.readInto h.1 8 h.2).1 ≠ S := fun hs => hstop (.inl hs)
  have hid : (f.readInto (f.readInto h.1 8 h.2).2 4 0).1 ≠ signatureSchemeV2Magic := by
    by_cases hle : (f.readInto h.1 8 h.2).2 + 4 ≤ f.size
    · rw [RegularFile.readInto_of_le hle (by norm_num)]
      exact fun hm => hstop (.inr ⟨hle, hm⟩)
    · exact partial_id_ne hle
  simp only [pairBody, if_neg hsize, hzero, UInt32.toNat_zero, if_neg hid, hop,
    RegularFile.readInto_offset _ 4]

/-- The pair loop ends for all values of its locals exactly when some hop comes to a stop. -/
theorem pairLoop_terminates_iff (junk8 : UInt64) (h : ℕ × ℕ) (iter : ℕ) :
    (∀ junk : Uninit, junk.size8 = junk8 →
      Loop.Terminates (pairBody f S junk) ⟨h.1, h.2, iter⟩) ↔
        ∃ k, StopsAt f S ((hop f)^[k] h) := by
  constructor
  · intro hall
    obtain ⟨cert, n, hn⟩ := hall ⟨0, junk8, fun _ => 0⟩ rfl
    clear hall
    induction n generalizing h iter with
    | zero => simp [Loop.run] at hn
    | succ n ih =>
      by_cases hstop : StopsAt f S h
      · exact ⟨0, hstop⟩
      · rw [Loop.run_of_inl (pairBody_of_zero_id _ rfl hstop)] at hn
        obtain ⟨k, hk⟩ := ih (hop f h) (iter + 1) hn
        exact ⟨k + 1, by rwa [Function.iterate_succ_apply]⟩
  · intro hstop junk _
    obtain ⟨k, hk⟩ := hstop
    induction k generalizing h iter with
    | zero =>
      obtain ⟨cert, hcert⟩ := pairBody_of_stopsAt junk iter hk
      exact Loop.terminates_of_inr hcert
    | succ k ih =>
      rw [Function.iterate_succ_apply] at hk
      rcases pairBody_inl_or_inr (S := S) junk h iter with ⟨cert, hcert⟩ | hhop
      · exact Loop.terminates_of_inr hcert
      · rw [Loop.terminates_of_inl hhop]
        exact ih (hop f h) (iter + 1) hk

/-- The signed distance that a pair of this length is skipped by. -/
def skipDistance (size8 : ℕ) : ℤ :=
  offT ((size8 + 2 ^ 64 - 4) % 2 ^ 64)

/-- A skip goes its distance or, when that is no offset, nowhere. -/
theorem skipPair_cases (f : RegularFile) (pos size8 : ℕ) :
    ((skipPair f pos size8 : ℤ) = pos + skipDistance size8) ∨
      (skipPair f pos size8 = pos ∧
        (pos + skipDistance size8 < 0 ∨ 2 ^ 63 ≤ pos + skipDistance size8)) := by
  unfold skipPair RegularFile.lseek
  simp only [RegularFile.seekTarget]
  change ((if 0 ≤ (pos : ℤ) + skipDistance size8 ∧ (pos : ℤ) + skipDistance size8 < 2 ^ 63
      then ((pos : ℤ) + skipDistance size8).toNat else pos : ℕ) : ℤ) = _ ∨ _
  split
  · left
    omega
  · right
    refine ⟨if_neg ‹_›, ?_⟩
    omega

/-- Where the offset of a hop comes from. -/
theorem hop_fst (f : RegularFile) (h : ℕ × ℕ) :
    (hop f h).1 = skipPair f
      ((f.readInto h.1 8 h.2).2 + (f.read (f.readInto h.1 8 h.2).2 4).length) (hop f h).2 := by
  simp only [hop]

/-- A state past the end of the file that no skip brings back. -/
def Stuck (f : RegularFile) (S : ℕ) (h : ℕ × ℕ) : Prop :=
  f.size ≤ h.1 ∧ h.2 ≠ S ∧ (0 ≤ skipDistance h.2 ∨ (h.1 : ℤ) + skipDistance h.2 < 0)

/-- Past the end of the file a hop repeats the last skip. -/
theorem hop_of_size_le {h : ℕ × ℕ} (hle : f.size ≤ h.1) :
    hop f h = (skipPair f h.1 h.2, h.2) := by
  simp only [hop, RegularFile.readInto_of_size_le hle, RegularFile.read_of_size_le hle,
    List.length_nil, Nat.add_zero]

/-- Once stuck, the walk stays stuck. -/
theorem Stuck.step {h : ℕ × ℕ} (hs : Stuck f S h) : Stuck f S (hop f h) := by
  obtain ⟨hle, hne, hd⟩ := hs
  rw [hop_of_size_le hle]
  unfold Stuck
  rcases skipPair_cases f h.1 h.2 with hgo | ⟨hstay, -⟩
  · refine ⟨?_, hne, ?_⟩
    · dsimp only
      omega
    · dsimp only
      omega
  · rw [hstay]
    exact ⟨hle, hne, hd⟩

/-- The walk does not stop where it is stuck. -/
theorem Stuck.not_stopsAt {h : ℕ × ℕ} (hs : Stuck f S h) : ¬ StopsAt f S h := by
  obtain ⟨hle, hne, -⟩ := hs
  unfold StopsAt
  rw [RegularFile.readInto_of_size_le hle]
  dsimp only
  omega

/-- From where it is stuck the walk never stops. -/
theorem Stuck.never {h : ℕ × ℕ} (hs : Stuck f S h) (k : ℕ) : ¬ StopsAt f S ((hop f)^[k] h) := by
  induction k generalizing h with
  | zero => exact hs.not_stopsAt
  | succ k ih =>
    rw [Function.iterate_succ_apply]
    exact ih hs.step

/-- Inside the file a hop stays inside or gets stuck. -/
theorem hop_inside {h : ℕ × ℕ} (hlt : h.1 < f.size) (hstop : ¬ StopsAt f S h) :
    (hop f h).1 < f.size ∨ Stuck f S (hop f h) := by
  have hsize : f.size < 2 ^ 63 := f.size_lt
  have hne : (hop f h).2 ≠ S := fun hs => hstop (.inl hs)
  have hoff := RegularFile.readInto_snd (f := f) h.1 8 h.2
  have hid := RegularFile.length_read (f := f) (f.readInto h.1 8 h.2).2 4
  have hend : (f.readInto h.1 8 h.2).2 + (f.read (f.readInto h.1 8 h.2).2 4).length ≤ f.size := by
    omega
  by_cases hin : (hop f h).1 < f.size
  · exact .inl hin
  · right
    refine ⟨not_lt.mp hin, hne, ?_⟩
    have hcases := skipPair_cases f
      ((f.readInto h.1 8 h.2).2 + (f.read (f.readInto h.1 8 h.2).2 4).length) (hop f h).2
    rw [← hop_fst] at hcases
    omega

/-- A length that is wholly in the file makes the hop a function of its offset. -/
theorem hop_eq_of_whole {h h' : ℕ × ℕ} (hle : h.1 + 8 ≤ f.size) (hpos : h.1 = h'.1)
    (hlt : h.2 < 2 ^ 64) (hlt' : h'.2 < 2 ^ 64) : hop f h = hop f h' := by
  simp only [hop, ← hpos, RegularFile.readInto_of_le hle (show h.2 < 256 ^ 8 from hlt),
    RegularFile.readInto_of_le hle (show h'.2 < 256 ^ 8 from hlt')]

/-- The length a hop keeps is one of eight bytes. -/
theorem hop_snd_lt {h : ℕ × ℕ} (hlt : h.2 < 2 ^ 64) : (hop f h).2 < 2 ^ 64 :=
  RegularFile.readInto_fst_lt 8 hlt

/-- A hop back from a length that is cut off by the end of the file counts from that end, so
the offset it comes to tells its length. -/
theorem hop_snd_of_cut {h : ℕ × ℕ} (hlt : h.1 < f.size) (hcut : ¬ h.1 + 8 ≤ f.size)
    (hprev : h.2 < 2 ^ 64) (hback : (hop f h).1 < f.size) :
    (hop f h).2 = ((hop f h).1 + 2 ^ 64 + 4 - f.size) % 2 ^ 64 := by
  have hsize : f.size < 2 ^ 63 := f.size_lt
  have hoff := RegularFile.readInto_snd (f := f) h.1 8 h.2
  have hid := RegularFile.length_read (f := f) (f.readInto h.1 8 h.2).2 4
  have hlen := hop_snd_lt (f := f) hprev
  have hcases := skipPair_cases f
    ((f.readInto h.1 8 h.2).2 + (f.read (f.readInto h.1 8 h.2).2 4).length) (hop f h).2
  rw [← hop_fst] at hcases
  unfold skipDistance offT at hcases
  split at hcases <;> omega

/-- A walk that comes to a stop does so within twice as many hops as the file has bytes. -/
theorem stops_within (hS : S < 2 ^ 64) {pairs : ℕ}
    (h : ∃ k, StopsAt f S ((hop f)^[k] (pairs, S))) :
    ∃ k ≤ 2 * f.size, StopsAt f S ((hop f)^[k] (pairs, S)) := by
  obtain ⟨k, hit, first⟩ := Orbit.exists_first_hit h
  refine ⟨k, ?_, hit⟩
  have hprev : ∀ i, ((hop f)^[i] (pairs, S)).2 < 2 ^ 64 := by
    intro i
    induction i with
    | zero => exact hS
    | succ i ih =>
      rw [Function.iterate_succ_apply']
      exact hop_snd_lt ih
  by_cases hstart : f.size ≤ pairs
  · -- past the end the first length is still the block size
    have hzero : StopsAt f S (pairs, S) := .inl (by rw [RegularFile.readInto_of_size_le hstart])
    have hk : k = 0 := by
      by_contra hpos
      exact first 0 (by omega) hzero
    omega
  · have hinside : ∀ i ≤ k, ((hop f)^[i] (pairs, S)).1 < f.size := by
      intro i hi
      induction i with
      | zero => exact not_le.mp hstart
      | succ i ih =>
        rcases hop_inside (ih (by omega)) (first i (by omega)) with hin | hstuck
        · rwa [Function.iterate_succ_apply']
        · rw [← Function.iterate_succ_apply' (hop f) i (pairs, S)] at hstuck
          have hnever := hstuck.never (k - (i + 1))
          rw [← Function.iterate_add_apply, Nat.sub_add_cancel hi] at hnever
          exact absurd hit hnever
    apply Orbit.hit_le_of_code (fun i =>
      if ((hop f)^[i] (pairs, S)).1 + 8 ≤ f.size then ((hop f)^[i] (pairs, S)).1
      else f.size + ((hop f)^[i + 1] (pairs, S)).1) hit first
    · intro i hi
      have h₁ := hinside i (by omega)
      have h₂ := hinside (i + 1) (by omega)
      split <;> omega
    · intro i hi j hj hij
      have hi₁ := hinside i (by omega)
      have hj₁ := hinside j (by omega)
      have hi₂ := hinside (i + 1) (by omega)
      have hj₂ := hinside (j + 1) (by omega)
      simp only [Function.iterate_succ_apply'] at hij hi₂ hj₂ ⊢
      split at hij <;> split at hij
      · exact hop_eq_of_whole ‹_› hij (hprev i) (hprev j)
      · omega
      · omega
      · have hpos : (hop f ((hop f)^[i] (pairs, S))).1 = (hop f ((hop f)^[j] (pairs, S))).1 := by
          omega
        refine Prod.ext hpos ?_
        rw [hop_snd_of_cut hi₁ ‹_› (hprev i) hi₂, hop_snd_of_cut hj₁ ‹_› (hprev j) hj₂, hpos]

/-- The function returns on a file, whatever its uninitialised locals hold, exactly when the
checks in front of the pair loop turn the file away or the hops from its first pair come to a
header of the block's own size or of the v2 id; it is enough to look at twice as many hops as
the file has bytes. -/
theorem readCertificate_terminates_iff (f : RegularFile) (pos : ℕ) :
    (∀ junk : Uninit, ∃ cert, ReadsCertificate f pos junk cert) ↔
      ∀ pairs S, EntersPairs f pos pairs S →
        ∃ k ≤ 2 * f.size, StopsAt f S ((hop f)^[k] (pairs, S)) := by
  obtain ⟨found, hfound⟩ := scan_returns f pos
  constructor
  · intro hall pairs S henters
    obtain ⟨eocd, junk8, hscan, hblock⟩ := henters
    have hS := signingBlock_size_lt junk8.toNat_lt hblock
    apply stops_within hS
    rw [← pairLoop_terminates_iff junk8 (pairs, S) 0]
    intro junk hjunk
    obtain ⟨cert, hcert⟩ := hall junk
    rw [readsCertificate_iff hscan, Option.bind_some, hjunk, hblock] at hcert
    exact ⟨cert, hcert⟩
  · intro hstops junk
    cases hblock : found.bind fun e => signingBlock f e junk.size8.toNat with
    | none =>
      refine ⟨[], ?_⟩
      rw [readsCertificate_iff hfound, hblock]
    | some block =>
      obtain ⟨eocd, rfl, hblock'⟩ := Option.bind_eq_some_iff.mp hblock
      obtain ⟨k, -, hk⟩ := hstops block.1 block.2 ⟨eocd, junk.size8, hfound, hblock'⟩
      obtain ⟨cert, hcert⟩ :=
        (pairLoop_terminates_iff junk.size8 (block.1, block.2) 0).mpr ⟨k, hk⟩ junk rfl
      exact ⟨cert, by rw [readsCertificate_iff hfound, hblock]; exact hcert⟩

/-- A file of 66 bytes with one pair, of length 2^64 - 8 and id 0: the skip goes back by the
twelve bytes of the pair's own header. -/
def loopingFile : RegularFile where
  bytes := encode 8 36 ++ (encode 8 0xfffffffffffffff8 ++ (encode 4 0 ++ (encode 8 36 ++
    (apkSigningBlockMagic ++ (encode 4 eocdMagic ++ (List.replicate 12 0 ++
      (encode 4 44 ++ encode 2 0)))))))
  size_lt := by decide

/-- On that file the pair loop reads its one header for ever. -/
theorem readCertificate_loops :
    ¬ ∀ (f : RegularFile) (pos : ℕ) (junk : Uninit), ∃ cert, ReadsCertificate f pos junk cert := by
  intro hall
  have hscan : Loop.Returns (scanBody loopingFile) ⟨0, 0⟩ (some 48) := ⟨1, by decide +kernel⟩
  have hblock : signingBlock loopingFile 48 0 = some (8, 36) := by decide +kernel
  have hloops : ∀ k, ¬ StopsAt loopingFile 36 ((hop loopingFile)^[k] (8, 36)) := by
    have hfirst : hop loopingFile (8, 36) = (8, 0xfffffffffffffff8) := by decide +kernel
    have hfixed : hop loopingFile (8, 0xfffffffffffffff8) = (8, 0xfffffffffffffff8) := by
      decide +kernel
    intro k
    cases k with
    | zero => decide +kernel
    | succ k =>
      rw [Function.iterate_succ_apply, hfirst, Function.iterate_fixed hfixed]
      decide +kernel
  have hterm : ∃ k, StopsAt loopingFile 36 ((hop loopingFile)^[k] (8, 36)) := by
    rw [← pairLoop_terminates_iff 0 (8, 36) 0]
    intro junk hjunk
    obtain ⟨cert, hcert⟩ := hall loopingFile 0 junk
    rw [readsCertificate_iff hscan, Option.bind_some, hjunk] at hcert
    exact ⟨cert, by simpa only [UInt64.toNat_zero, hblock] using hcert⟩
  obtain ⟨k, hk⟩ := hterm
  exact hloops k hk

end XposedJniTrace.Cert
