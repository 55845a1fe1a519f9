import XposedJniTrace.Library.Loop
import XposedJniTrace.Library.Posix

/-!
# `read_certificate` of `sec/cert.cpp`

The function scans a file backwards for the end-of-central-directory record, finds the APK
signing block from it, and walks the block's id-value pairs up to the v2 signature, whose
first certificate it returns. It never looks at what `lseek` or `read` return, so a failed
seek reads from the old offset and a short read leaves the rest of the variable as it was.

Both loops are given by their bodies. A variable that the source leaves uninitialised is a
parameter; the one declared inside the pair loop is a new indeterminate value each time.
-/

namespace XposedJniTrace.Cert

open Posix LittleEndian

/-- The source's `APK_SIGNING_BLOCK_MAGIC`, "APK Sig Block 42". -/
def apkSigningBlockMagic : List UInt8 :=
  [0x41, 0x50, 0x4b, 0x20, 0x53, 0x69, 0x67, 0x20, 0x42, 0x6c, 0x6f, 0x63, 0x6b, 0x20, 0x34, 0x32]

/-- The source's `SIGNATURE_SCHEME_V2_MAGIC`. -/
def signatureSchemeV2Magic : ℕ := 0x7109871a

/-- The source's `EOCD_MAGIC`. -/
def eocdMagic : ℕ := 0x6054b50

/-- What the uninitialised locals hold. -/
structure Uninit where
  size4 : UInt32
  size8 : UInt64
  id : ℕ → UInt32

/-- The state of the end-of-central-directory scan: the counter and the file offset. -/
structure ScanState where
  i : ℕ
  pos : ℕ

/-- The end of one scan iteration: give up after the longest comment, or count on. -/
def scanNext (i pos : ℕ) : ScanState ⊕ Option ℕ :=
  if i = 0xffff then .inr none else .inl ⟨i + 1, pos⟩

/-- One iteration of the scan; it leaves with the offset just past the matched magic. -/
def scanBody (f : RegularFile) (s : ScanState) : ScanState ⊕ Option ℕ :=
  let commentSz := f.readInto (f.lseek s.pos (-2 - s.i) .fromEnd) 2 0
  if commentSz.1 = s.i then
    let magic := f.readInto (f.lseek commentSz.2 (-22) .cur) 4 0
    if magic.1 = eocdMagic then .inr (some magic.2) else scanNext s.i magic.2
  else scanNext s.i commentSz.2

/-- From just past the record's magic to the first id-value pair: the offset of the pair and
the size of the block, or `none` where the source aborts. -/
def signingBlock (f : RegularFile) (pos size8 : ℕ) : Option (ℕ × ℕ) :=
  -- offsetof(EOCD, central_dir_off) - sizeof(EOCD::magic)
  let centralDirOff := f.readInto (f.lseek pos 12 .cur) 4 0
  -- the subtraction is made in 32 bits: uint32_t minus a constexpr int
  let trailer := f.lseek centralDirOff.2 ((centralDirOff.1 + 2 ^ 32 - 24) % 2 ^ 32 : ℕ) .set
  let size8 := f.readInto trailer 8 size8
  let magic := f.read size8.2 16
  if magic ++ List.replicate (16 - magic.length) 0 ≠ apkSigningBlockMagic then none
  else
    -- and this one in 64 bits: uint32_t minus uint64_t minus size_t
    let head := f.lseek (size8.2 + magic.length)
      (offT ((centralDirOff.1 + 2 * 2 ^ 64 - size8.1 - 8) % 2 ^ 64)) .set
    let signingBlkSz := f.readInto head 8 0
    if signingBlkSz.1 ≠ size8.1 then none else some (signingBlkSz.2, size8.1)

/-- Inside the v2 pair: four lengths, the digests skipped, two more lengths. The result is the
offset of the certificate and the length that the last field gave it. -/
def certificateRange (f : RegularFile) (pos size4 : ℕ) : ℕ × ℕ :=
  let signerSequence := f.readInto pos 4 size4
  let signer := f.readInto signerSequence.2 4 signerSequence.1
  let signedData := f.readInto signer.2 4 signer.1
  let digestSequence := f.readInto signedData.2 4 signedData.1
  let certs := f.lseek digestSequence.2 (offT digestSequence.1) .cur
  let certSequence := f.readInto certs 4 digestSequence.1
  let cert := f.readInto certSequence.2 4 certSequence.1
  (cert.2, cert.1)

/-- A string resized to `count` zero bytes and then read into. -/
def readString (f : RegularFile) (pos count : ℕ) : List UInt8 :=
  let got := f.read pos count
  got ++ List.replicate (count - got.length) 0

/-- The state of the pair loop: the file offset, the last length, and the iterations made. -/
structure PairState where
  pos : ℕ
  size8 : ℕ
  iter : ℕ

/-- Skip an id-value pair, from the offset just past its id. -/
def skipPair (f : RegularFile) (pos size8 : ℕ) : ℕ :=
  f.lseek pos (offT ((size8 + 2 ^ 64 - 4) % 2 ^ 64)) .cur

/-- One iteration of the pair loop; it leaves with the string that the function returns. -/
def pairBody (f : RegularFile) (signingBlkSz : ℕ) (junk : Uninit) (s : PairState) :
    PairState ⊕ List UInt8 :=
  let size8 := f.readInto s.pos 8 s.size8
  if size8.1 = signingBlkSz then .inr []
  else
    let id := f.readInto size8.2 4 (junk.id s.iter).toNat
    if id.1 = signatureSchemeV2Magic then
      let cert := certificateRange f id.2 junk.size4.toNat
      .inr (readString f cert.1 cert.2)
    else .inl ⟨skipPair f id.2 size8.1, size8.1, s.iter + 1⟩

/-- The whole function on a descriptor at offset `pos`, each loop with the same budget. -/
def readCertificate (fuel : ℕ) (f : RegularFile) (pos : ℕ) (junk : Uninit) : Option (List UInt8) :=
  (Loop.run (scanBody f) fuel ⟨0, pos⟩).bind fun eocd =>
    match eocd.bind fun e => signingBlock f e junk.size8.toNat with
    | none => some []
    | some (pairs, signingBlkSz) =>
      Loop.run (pairBody f signingBlkSz junk) fuel ⟨pairs, signingBlkSz, 0⟩

/-- The function returns this string. -/
def ReadsCertificate (f : RegularFile) (pos : ℕ) (junk : Uninit) (cert : List UInt8) : Prop :=
  ∃ fuel, readCertificate fuel f pos junk = some cert

end XposedJniTrace.Cert
