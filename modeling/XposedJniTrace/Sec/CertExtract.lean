import XposedJniTrace.Sec.ApkFormat
import XposedJniTrace.Sec.CertScan

/-!
# Extraction on well-formed signed APKs

Every seek and every read of the parser lands where the documented layout puts the field it
is after. The walk over the id-value pairs goes by induction on the pairs that are left: a
pair's stored length is always below the block size, so no pair is taken for the end of the
block.
-/

namespace XposedJniTrace.Cert

open Posix LittleEndian

section Apk

variable (apk : SignedApk)

/-- What follows the central directory offset. -/
def SignedApk.afterBlock : List UInt8 :=
  apk.centralDir ++ (apk.eocd ++ apk.comment)

/-- At the end of the contents follows the signing block, and behind it the rest of the APK. -/
theorem follows_block : apk.file.Follows apk.contents.length
    (encode 8 (blockSize apk.pairs) ++ (pairSequence apk.pairs ++
      (encode 8 (blockSize apk.pairs) ++ (apkSigningBlockMagic ++ apk.afterBlock)))) := by
  apply RegularFile.follows_of_append
  simp only [SignedApk.file, SignedApk.bytes, SignedApk.afterBlock, signingBlockBytes,
    List.append_assoc]

/-- Behind the first size of the block follow its pairs. -/
theorem follows_pairs : apk.file.Follows (apk.contents.length + 8)
    (pairSequence apk.pairs ++
      (encode 8 (blockSize apk.pairs) ++ (apkSigningBlockMagic ++ apk.afterBlock))) :=
  (follows_block apk).skip

/-- Behind the pairs follow the second size and the magic. -/
theorem follows_trailer :
    apk.file.Follows (apk.contents.length + 8 + (pairSequence apk.pairs).length)
      (encode 8 (blockSize apk.pairs) ++ (apkSigningBlockMagic ++ apk.afterBlock)) :=
  (follows_pairs apk).tail

/-- Behind the central directory follow the record and the comment. -/
theorem follows_eocd : apk.file.Follows (apk.centralDirOff + apk.centralDir.length)
    (apk.eocd ++ apk.comment) := by
  have h : apk.file.Follows
      ((apk.contents ++ signingBlockBytes apk.pairs) ++ apk.centralDir).length
      (apk.eocd ++ apk.comment) := by
    apply RegularFile.follows_of_append
    simp only [SignedApk.file, SignedApk.bytes, List.append_assoc]
  rw [List.length_append, List.length_append] at h
  exact h

/-- The record in front of its own comment has the magic. -/
theorem field_magic :
    apk.file.field (apk.centralDirOff + apk.centralDir.length) 4 = eocdMagic := by
  have h := follows_eocd apk
  rw [SignedApk.eocd, List.append_assoc] at h
  exact h.field (by decide)

/-- Past the magic and eight bytes that nothing reads come the three stored numbers. -/
theorem follows_centralDirOff :
    apk.file.Follows (apk.centralDirOff + apk.centralDir.length + 16)
      (encode 4 apk.centralDirOff ++ (encode 2 apk.comment.length ++ apk.comment)) := by
  have h := follows_eocd apk
  rw [SignedApk.eocd] at h
  simp only [List.append_assoc] at h
  have hpad := h.skip.tail.skip
  rw [apk.pad_length] at hpad
  exact hpad

/-- The comment size in the record is the length of the comment. -/
theorem field_commentSz :
    apk.file.field (apk.centralDirOff + apk.centralDir.length + 20) 2 = apk.comment.length := by
  have hle := apk.comment_le
  exact (follows_centralDirOff apk).skip.field (by omega)

/-- From any counter up to the comment's length the scan comes to the record. -/
theorem scan_apk (hscan : apk.NoFalseEocd) (pos : ℕ) :
    Loop.Returns (scanBody apk.file) ⟨0, pos⟩
      (some (apk.centralDirOff + apk.centralDir.length + 4)) := by
  have hsize := apk.size_file
  have hle := apk.comment_le
  suffices h : ∀ k i pos, i + k = apk.comment.length →
      Loop.Returns (scanBody apk.file) ⟨i, pos⟩
        (some (apk.centralDirOff + apk.centralDir.length + 4)) from
    h apk.comment.length 0 pos (Nat.zero_add _)
  intro k
  induction k with
  | zero =>
    intro i pos hi
    have hsz : apk.file.field (apk.file.size - 2 - i) 2 = i := by
      rw [show apk.file.size - 2 - i = apk.centralDirOff + apk.centralDir.length + 20 by omega,
        field_commentSz]
      omega
    have hmagic : apk.file.field (apk.file.size - 22 - i) 4 = eocdMagic := by
      rw [show apk.file.size - 22 - i = apk.centralDirOff + apk.centralDir.length by omega,
        field_magic]
    rw [Loop.returns_of_inr (scanBody_found (by omega) hsz hmagic)]
    congr 1
    omega
  | succ k ih =>
    intro i pos hi
    obtain ⟨pos', hnext⟩ := scanBody_next pos (by omega) (by omega)
      (hscan i (by omega))
    rw [Loop.returns_of_inl hnext]
    exact ih (i + 1) pos' (by omega)

/-- The record leads to the first pair and the size of the block. -/
theorem signingBlock_apk (junk : UInt64) :
    signingBlock apk.file (apk.centralDirOff + apk.centralDir.length + 4) junk.toNat =
      some (apk.contents.length + 8, blockSize apk.pairs) := by
  have hsize := apk.size_file
  have hfile : apk.file.size < 2 ^ 63 := apk.file.size_lt
  have hoff : apk.centralDirOff < 2 ^ 32 := apk.centralDirOff_lt
  have hblock : apk.centralDirOff =
      apk.contents.length + (pairSequence apk.pairs).length + 32 := by
    rw [SignedApk.centralDirOff, length_signingBlockBytes]
    omega
  have hS : blockSize apk.pairs = (pairSequence apk.pairs).length + 24 := rfl
  have hjunk : junk.toNat < 256 ^ 8 := junk.toNat_lt
  have hseek : apk.file.lseek (apk.centralDirOff + apk.centralDir.length + 4) 12 .cur =
      apk.centralDirOff + apk.centralDir.length + 16 := by
    apply RegularFile.lseek_of_eq
    · simp only [RegularFile.seekTarget]
      omega
    · omega
  have hcdo := (follows_centralDirOff apk).readInto 0 (by omega) (by norm_num)
  have htrailer : ∀ pos, apk.file.lseek pos
      ((apk.centralDirOff + 2 ^ 32 - 24) % 2 ^ 32 : ℕ) .set =
        apk.contents.length + 8 + (pairSequence apk.pairs).length := by
    intro pos
    apply RegularFile.lseek_of_eq
    · simp only [RegularFile.seekTarget]
      omega
    · omega
  have hsize8 := (follows_trailer apk).readInto junk.toNat (by omega) hjunk
  have hmagic := (follows_trailer apk).skip.read
  rw [show apkSigningBlockMagic.length = 16 by decide] at hmagic
  have hhead : ∀ pos, apk.file.lseek pos
      (offT ((apk.centralDirOff + 2 * 2 ^ 64 - blockSize apk.pairs - 8) % 2 ^ 64)) .set =
        apk.contents.length := by
    intro pos
    apply RegularFile.lseek_of_eq
    · simp only [RegularFile.seekTarget]
      rw [show (apk.centralDirOff + 2 * 2 ^ 64 - blockSize apk.pairs - 8) % 2 ^ 64 =
        apk.contents.length by omega, offT, if_pos (by omega)]
    · omega
  have hfirst := (follows_block apk).readInto 0 (by omega) (by norm_num)
  simp only [signingBlock, hseek, hcdo, htrailer, hsize8, hmagic, hhead, hfirst]
  rw [if_neg (by decide), if_neg (by simp)]

end Apk

section Pairs

variable {f : RegularFile} {signingBlkSz : ℕ} {junk : Uninit}

/-- The body reads a whole pair header. -/
theorem pairBody_header {pos size8 iter : ℕ} {p : IdValuePair} {rest : List UInt8}
    (h : f.Follows pos (p.encode ++ rest)) (hlen : p.value.length + 4 < signingBlkSz)
    (hsz : signingBlkSz < 2 ^ 64) (hold : size8 < 2 ^ 64) :
    pairBody f signingBlkSz junk ⟨pos, size8, iter⟩ =
      if p.id.toNat = signatureSchemeV2Magic then
        let cert := certificateRange f (pos + 12) junk.size4.toNat
        .inr (readString f cert.1 cert.2)
      else .inl ⟨skipPair f (pos + 12) (p.value.length + 4), p.value.length + 4, iter + 1⟩ := by
  rw [IdValuePair.encode, List.append_assoc, List.append_assoc] at h
  have hid : p.id.toNat < 256 ^ 4 := p.id.toNat_lt
  have hjunk : (junk.id iter).toNat < 256 ^ 4 := (junk.id iter).toNat_lt
  simp only [pairBody, h.readInto size8 (show p.value.length + 4 < 256 ^ 8 by omega)
    (show size8 < 256 ^ 8 by omega), h.skip.readInto _ hid hjunk]
  rw [if_neg (by omega)]

/-- Any other pair is skipped whole. -/
theorem pairBody_skip {pos size8 iter : ℕ} {p : IdValuePair} {rest : List UInt8}
    (h : f.Follows pos (p.encode ++ rest)) (hlen : p.value.length + 4 < signingBlkSz)
    (hsz : signingBlkSz < 2 ^ 64) (hold : size8 < 2 ^ 64)
    (hid : p.id.toNat ≠ signatureSchemeV2Magic) :
    pairBody f signingBlkSz junk ⟨pos, size8, iter⟩ =
      .inl ⟨pos + p.encode.length, p.value.length + 4, iter + 1⟩ := by
  have hfile : f.size < 2 ^ 63 := f.size_lt
  have hend := h.length_eq
  rw [List.length_append, IdValuePair.length_encode] at hend
  have hskip : skipPair f (pos + 12) (p.value.length + 4) = pos + p.encode.length := by
    rw [IdValuePair.length_encode]
    apply RegularFile.lseek_of_eq
    · rw [show (p.value.length + 4 + 2 ^ 64 - 4) % 2 ^ 64 = p.value.length by omega, offT,
        if_pos (by omega)]
      simp only [RegularFile.seekTarget]
      omega
    · omega
  rw [pairBody_header h hlen hsz hold, if_neg hid, hskip]

/-- The six lengths in front of the first certificate, as the value of a v2 pair stores them. -/
theorem signerSequence_layout {signer : Signer} {cert : List UInt8} {certs : List (List UInt8)}
    (signers : List Signer) (hcert : signer.signedData.certificates = cert :: certs) :
    ∃ n₁ n₂ n₃ n₅ digests after,
      signerSequence (signer :: signers) =
        encode 4 n₁ ++ (encode 4 n₂ ++ (encode 4 n₃ ++ (encode 4 digests.length ++ (digests ++
          (encode 4 n₅ ++ (encode 4 cert.length ++ (cert ++ after))))))) ∧
      n₁ ≤ (signerSequence (signer :: signers)).length ∧
      n₂ ≤ (signerSequence (signer :: signers)).length ∧
      n₃ ≤ (signerSequence (signer :: signers)).length ∧
      n₅ ≤ (signerSequence (signer :: signers)).length := by
  let digests := signer.signedData.digests.flatMap Digest.encode
  let attributes := lenPrefixed (signer.signedData.attributes.flatMap Attribute.encode)
  let signatures := lenPrefixed (signer.signatures.flatMap Signature.encode)
  refine ⟨(signer.encode ++ signers.flatMap Signer.encode).length,
    (signer.signedData.encode ++ (signatures ++ lenPrefixed signer.publicKey)).length,
    (lenPrefixed digests ++
      (lenPrefixed ((cert :: certs).flatMap lenPrefixed) ++ attributes)).length,
    ((cert :: certs).flatMap lenPrefixed).length, digests,
    certs.flatMap lenPrefixed ++ (attributes ++ (signatures ++
      (lenPrefixed signer.publicKey ++ signers.flatMap Signer.encode))), ?_, ?_⟩
  · simp only [signerSequence, Signer.encode, SignedData.encode, lenPrefixed, hcert,
      List.flatMap_cons, List.append_assoc, digests, attributes, signatures]
  · simp only [signerSequence, Signer.encode, SignedData.encode, hcert, List.flatMap_cons,
      length_lenPrefixed, List.length_append, digests, attributes, signatures]
    omega

/-- Inside a well-formed v2 value the six lengths lead to the first certificate. -/
theorem certificateRange_signerSequence {pos size4 : ℕ} {signer : Signer} {cert : List UInt8}
    {certs : List (List UInt8)} {signers : List Signer} {rest : List UInt8}
    (hcert : signer.signedData.certificates = cert :: certs)
    (h : f.Follows pos (signerSequence (signer :: signers) ++ rest))
    (hlt : (signerSequence (signer :: signers)).length < 2 ^ 32) (hold : size4 < 2 ^ 32) :
    ∃ start after, certificateRange f pos size4 = (start, cert.length) ∧
      f.Follows start (cert ++ after) := by
  have hfile : f.size < 2 ^ 63 := f.size_lt
  have hend := h.length_eq
  obtain ⟨n₁, n₂, n₃, n₅, digests, after, hlay, h₁, h₂, h₃, h₅⟩ :=
    signerSequence_layout signers hcert
  have hlen := congrArg List.length hlay
  rw [hlay] at h
  simp only [List.length_append, length_encode, List.append_assoc] at hlen h hend
  have hr₁ := h.readInto size4 (by omega) (by omega)
  have hr₂ := h.skip.readInto n₁ (by omega) (by omega)
  have hr₃ := h.skip.skip.readInto n₂ (by omega) (by omega)
  have hr₄ := h.skip.skip.skip.readInto n₃ (by omega) (by omega)
  have hdigests := h.skip.skip.skip.skip.tail
  have hseek : f.lseek (pos + 4 + 4 + 4 + 4) (offT digests.length) .cur =
      pos + 4 + 4 + 4 + 4 + digests.length := by
    apply RegularFile.lseek_of_eq
    · rw [offT, if_pos (by omega)]
      rfl
    · omega
  have hr₅ := hdigests.readInto digests.length (by omega) (by omega)
  have hr₆ := hdigests.skip.readInto n₅ (by omega) (by omega)
  refine ⟨_, _, ?_, hdigests.skip.skip⟩
  simp only [certificateRange, hr₁, hr₂, hr₃, hr₄, hseek, hr₅, hr₆]

/-- A string read in front of its own bytes is those bytes. -/
theorem readString_of_follows {start : ℕ} {cert after : List UInt8}
    (h : f.Follows start (cert ++ after)) : readString f start cert.length = cert := by
  rw [readString, h.read, Nat.sub_self, List.replicate_zero, List.append_nil]

/-- With no v2 pair left, the walk ends at the trailing size. -/
theorem pairs_none {pairs : List IdValuePair} {pos size8 iter : ℕ} {rest : List UInt8}
    (h : f.Follows pos (pairSequence pairs ++ (encode 8 signingBlkSz ++ rest)))
    (hlen : ∀ p ∈ pairs, p.value.length + 4 < signingBlkSz) (hsz : signingBlkSz < 2 ^ 64)
    (hold : size8 < 2 ^ 64)
    (hnone : ∀ p ∈ pairs, p.id.toNat ≠ signatureSchemeV2Magic) :
    Loop.Returns (pairBody f signingBlkSz junk) ⟨pos, size8, iter⟩ [] := by
  induction pairs generalizing pos size8 iter with
  | nil =>
    have hr := h.readInto size8 hsz hold
    apply (Loop.returns_of_inr _).mpr rfl
    simp only [pairBody, hr, if_true]
  | cons p pairs ih =>
    rw [pairSequence_cons, List.append_assoc] at h
    have hp := hlen p List.mem_cons_self
    rw [Loop.returns_of_inl
      (pairBody_skip h hp hsz hold (hnone p List.mem_cons_self))]
    exact ih h.tail (fun q hq => hlen q (List.mem_cons_of_mem _ hq)) (by omega)
      (fun q hq => hnone q (List.mem_cons_of_mem _ hq))

/-- The first v2 pair decides what the walk returns. -/
theorem pairs_some {pairs : List IdValuePair} {pos size8 iter : ℕ} {rest : List UInt8}
    {p : IdValuePair} {signer : Signer} {signers : List Signer} {cert : List UInt8}
    {certs : List (List UInt8)}
    (h : f.Follows pos (pairSequence pairs ++ rest))
    (hlen : ∀ p ∈ pairs, p.value.length + 4 < signingBlkSz) (hsz : signingBlkSz < 2 ^ 32)
    (hold : size8 < 2 ^ 64)
    (hsome : pairs.find? (fun p => p.id.toNat = signatureSchemeV2Magic) = some p)
    (hvalue : p.value = signerSequence (signer :: signers))
    (hcert : signer.signedData.certificates = cert :: certs) :
    Loop.Returns (pairBody f signingBlkSz junk) ⟨pos, size8, iter⟩ cert := by
  induction pairs generalizing pos size8 iter with
  | nil => cases hsome
  | cons q pairs ih =>
    rw [pairSequence_cons, List.append_assoc] at h
    have hq := hlen q List.mem_cons_self
    by_cases hid : q.id.toNat = signatureSchemeV2Magic
    · rw [List.find?_cons_of_pos (by simpa using hid)] at hsome
      obtain rfl := Option.some.inj hsome
      apply (Loop.returns_of_inr _).mpr rfl
      have hjunk : junk.size4.toNat < 2 ^ 32 := junk.size4.toNat_lt
      have hval := h
      rw [IdValuePair.encode, List.append_assoc, List.append_assoc, hvalue] at hval
      rw [hvalue] at hq
      obtain ⟨start, after, hrange, hfollows⟩ :=
        certificateRange_signerSequence hcert hval.skip.skip (by omega) hjunk
      rw [pairBody_header h (by rwa [hvalue]) (by omega) hold, if_pos hid, hrange]
      exact congrArg Sum.inr (readString_of_follows hfollows)
    · rw [List.find?_cons_of_neg (by simpa using hid)] at hsome
      rw [Loop.returns_of_inl (pairBody_skip h hq (by omega) hold hid)]
      exact ih h.tail (fun r hr => hlen r (List.mem_cons_of_mem _ hr)) (by omega) hsome

end Pairs

/-- A pair's stored length never collides with the size of the block it is in. -/
theorem pair_length_lt {pairs : List IdValuePair} {p : IdValuePair} (hp : p ∈ pairs) :
    p.value.length + 4 < blockSize pairs := by
  induction pairs with
  | nil => cases hp
  | cons q rest ih =>
    have hq := IdValuePair.length_encode q
    simp only [blockSize, pairSequence_cons, List.length_append] at ih ⊢
    rcases List.mem_cons.mp hp with rfl | hmem
    · omega
    · have := ih hmem
      omega

/-- On a signed APK the function is its walk over the id-value pairs. -/
theorem readsCertificate_apk (apk : SignedApk) {pos : ℕ} {junk : Uninit} {out : List UInt8}
    (hscan : apk.NoFalseEocd) :
    ReadsCertificate apk.file pos junk out ↔
      Loop.Returns (pairBody apk.file (blockSize apk.pairs) junk)
        ⟨apk.contents.length + 8, blockSize apk.pairs, 0⟩ out := by
  rw [readsCertificate_iff (scan_apk apk hscan pos), Option.bind_some, signingBlock_apk]

/-- On every well-formed signed APK, whatever the initial offset and the uninitialised locals,
the function returns exactly the first certificate of the first signer of the first v2 pair,
and exactly the empty string when the block has no v2 pair. -/
theorem readCertificate_signedApk (apk : SignedApk) (pos : ℕ) (junk : Uninit)
    (hscan : apk.NoFalseEocd) :
    (∀ p signer signers cert certs, apk.v2Pair? = some p →
      p.value = signerSequence (signer :: signers) →
      signer.signedData.certificates = cert :: certs →
      ∀ out, ReadsCertificate apk.file pos junk out ↔ out = cert) ∧
    (apk.v2Pair? = none → ∀ out, ReadsCertificate apk.file pos junk out ↔ out = []) := by
  have hoff := apk.centralDirOff_lt
  rw [length_signingBlockBytes] at hoff
  have hsz : blockSize apk.pairs < 2 ^ 32 := by
    rw [blockSize]
    omega
  have hlen : ∀ p ∈ apk.pairs, p.value.length + 4 < blockSize apk.pairs :=
    fun p hp => pair_length_lt hp
  constructor
  · intro p signer signers cert certs hp hvalue hcert out
    have hret : Loop.Returns (pairBody apk.file (blockSize apk.pairs) junk) ⟨_, _, 0⟩ cert :=
      pairs_some (follows_pairs apk) hlen hsz (by omega : blockSize apk.pairs < 2 ^ 64)
        hp hvalue hcert
    rw [readsCertificate_apk apk hscan]
    exact ⟨fun h => h.unique hret, fun h => h ▸ hret⟩
  · intro hnone out
    have hids : ∀ p ∈ apk.pairs, p.id.toNat ≠ signatureSchemeV2Magic := by
      intro p hp
      simpa using List.find?_eq_none.mp hnone p hp
    have hret : Loop.Returns (pairBody apk.file (blockSize apk.pairs) junk) ⟨_, _, 0⟩ [] :=
      pairs_none (follows_pairs apk) hlen (by omega) (by omega : blockSize apk.pairs < 2 ^ 64) hids
    rw [readsCertificate_apk apk hscan]
    exact ⟨fun h => h.unique hret, fun h => h ▸ hret⟩

/-- A signer with one certificate and nothing else. -/
def bareSigner (cert : List UInt8) : Signer where
  signedData := { digests := [], certificates := [cert], attributes := [] }
  signatures := []
  publicKey := []

/-- A small APK: a foreign pair, a v2 pair with two signers, and a two-byte comment. -/
def smallApk : SignedApk where
  contents := [0x50, 0x4b]
  pairs := [⟨0x42726577, [0, 0, 0]⟩,
    ⟨0x7109871a, signerSequence [bareSigner [0x30, 0x82], bareSigner [0x31]]⟩]
  centralDir := [1, 2, 3]
  pad := List.replicate 8 0
  centralDirSz := 3
  comment := [0x68, 0x69]
  pad_length := by decide
  centralDirOff_lt := by decide +kernel
  comment_le := by decide
  size_lt := by decide +kernel

/-- The certificate of the small APK is read, whatever the variables held before. -/
theorem readCertificate_smallApk :
    ReadsCertificate smallApk.file 0 ⟨7, 9, fun _ => 0x7109871a⟩ [0x30, 0x82] := by
  have hscan : smallApk.NoFalseEocd := by
    unfold SignedApk.NoFalseEocd
    decide +kernel
  exact ((readCertificate_signedApk smallApk 0 _ hscan).1 _ _ _ _ _ rfl rfl rfl _).mpr rfl

end XposedJniTrace.Cert
