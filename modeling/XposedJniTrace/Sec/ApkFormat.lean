import XposedJniTrace.Sec.Cert

/-!
# The signed APK that `cert.cpp` documents

The layout drawn above `read_certificate` and in the structs before it: zip content, signing
block, central directory, end-of-central-directory record. The records below follow the
structs `signing_block`, `v2_signature` and `EOCD`; every `len_prefixed` part is written
with the length of its own bytes. The parser itself does not use these declarations.
-/

namespace XposedJniTrace.Cert

open Posix LittleEndian

/-- An `id_value_pair`; its stored length counts the id and the value. -/
structure IdValuePair where
  id : UInt32
  value : List UInt8

/-- The bytes of a pair: its length, its id and its value. -/
def IdValuePair.encode (p : IdValuePair) : List UInt8 :=
  LittleEndian.encode 8 (p.value.length + 4) ++
    (LittleEndian.encode 4 p.id.toNat ++ p.value)

/-- Bytes behind their 32-bit length. -/
def lenPrefixed (bytes : List UInt8) : List UInt8 :=
  encode 4 bytes.length ++ bytes

/-- One digest of the signed data. -/
structure Digest where
  algorithm : UInt32
  digest : List UInt8

/-- The bytes of a digest. -/
def Digest.encode (d : Digest) : List UInt8 :=
  lenPrefixed (LittleEndian.encode 4 d.algorithm.toNat ++ lenPrefixed d.digest)

/-- One attribute of the signed data. -/
structure Attribute where
  id : UInt32
  value : List UInt8

/-- The bytes of an attribute. -/
def Attribute.encode (a : Attribute) : List UInt8 :=
  lenPrefixed (LittleEndian.encode 4 a.id.toNat ++ a.value)

/-- The part of a signer that is signed. -/
structure SignedData where
  digests : List Digest
  certificates : List (List UInt8)
  attributes : List Attribute

/-- The bytes of the signed data: its digests, its certificates and its attributes. -/
def SignedData.encode (d : SignedData) : List UInt8 :=
  lenPrefixed (lenPrefixed (d.digests.flatMap Digest.encode) ++
    (lenPrefixed (d.certificates.flatMap lenPrefixed) ++
      lenPrefixed (d.attributes.flatMap Attribute.encode)))

/-- One signature of a signer. -/
structure Signature where
  id : UInt32
  signature : List UInt8

/-- The bytes of a signature. -/
def Signature.encode (s : Signature) : List UInt8 :=
  lenPrefixed (LittleEndian.encode 4 s.id.toNat ++ lenPrefixed s.signature)

/-- A `v2_signature::signer`. -/
structure Signer where
  signedData : SignedData
  signatures : List Signature
  publicKey : List UInt8

/-- The bytes of a signer. -/
def Signer.encode (s : Signer) : List UInt8 :=
  lenPrefixed (s.signedData.encode ++
    (lenPrefixed (s.signatures.flatMap Signature.encode) ++ lenPrefixed s.publicKey))

/-- The value of a v2 pair: the length-prefixed sequence of signers. -/
def signerSequence (signers : List Signer) : List UInt8 :=
  lenPrefixed (signers.flatMap Signer.encode)

/-- The id-value pairs of a block, in order. -/
def pairSequence (pairs : List IdValuePair) : List UInt8 :=
  pairs.flatMap IdValuePair.encode

/-- The size a block stores: its pairs, the trailing size and the magic. -/
def blockSize (pairs : List IdValuePair) : ℕ :=
  (pairSequence pairs).length + 24

/-- The bytes of a signing block: the pairs between its two sizes, and the magic. -/
def signingBlockBytes (pairs : List IdValuePair) : List UInt8 :=
  encode 8 (blockSize pairs) ++
    (pairSequence pairs ++ (encode 8 (blockSize pairs) ++ apkSigningBlockMagic))

/-- A signed APK: its parts, with the bounds that the EOCD record and `off_t` put on them. -/
structure SignedApk where
  contents : List UInt8
  pairs : List IdValuePair
  centralDir : List UInt8
  pad : List UInt8
  centralDirSz : UInt32
  comment : List UInt8
  pad_length : pad.length = 8
  centralDirOff_lt : contents.length + (signingBlockBytes pairs).length < 2 ^ 32
  comment_le : comment.length ≤ 0xffff
  size_lt : contents.length + (signingBlockBytes pairs).length + centralDir.length + 22 +
    comment.length < 2 ^ 63

namespace SignedApk

variable (apk : SignedApk)

/-- The offset of the central directory, which is where the signing block ends. -/
def centralDirOff : ℕ := apk.contents.length + (signingBlockBytes apk.pairs).length

/-- The end-of-central-directory record. -/
def eocd : List UInt8 :=
  encode 4 eocdMagic ++ (apk.pad ++ (encode 4 apk.centralDirSz.toNat ++
    (encode 4 apk.centralDirOff ++ encode 2 apk.comment.length)))

/-- The bytes of the APK, part by part. -/
def bytes : List UInt8 :=
  apk.contents ++ (signingBlockBytes apk.pairs ++ (apk.centralDir ++ (apk.eocd ++ apk.comment)))

/-- The record has the size of the packed struct. -/
theorem length_eocd : apk.eocd.length = 22 := by
  simp [eocd, apk.pad_length]

/-- The length of the APK: what is in front of the central directory, the directory, the record and
the comment. -/
theorem length_bytes : apk.bytes.length =
    apk.centralDirOff + apk.centralDir.length + 22 + apk.comment.length := by
  simp only [bytes, List.length_append, length_eocd, centralDirOff]
  omega

/-- The APK as a file. -/
def file : RegularFile where
  bytes := apk.bytes
  size_lt := by
    have h := apk.size_lt
    rw [length_bytes, centralDirOff]
    exact h

/-- The size of the file is the length of the APK. -/
theorem size_file : apk.file.size =
    apk.centralDirOff + apk.centralDir.length + 22 + apk.comment.length :=
  apk.length_bytes

/-- The comment hides no other record: nowhere in front of its own record does a backward scan
find the magic at the distance that the scanned comment size asks for. -/
def NoFalseEocd : Prop :=
  ∀ i < apk.comment.length,
    ¬ (apk.file.field (apk.file.size - 2 - i) 2 = i ∧
      apk.file.field (apk.file.size - 22 - i) 4 = eocdMagic)

/-- The first v2 pair, as the walk over the block meets it. -/
def v2Pair? : Option IdValuePair :=
  apk.pairs.find? fun p => p.id.toNat = signatureSchemeV2Magic

end SignedApk

/-- A block is its pairs and thirty-two bytes of frame. -/
theorem length_signingBlockBytes (pairs : List IdValuePair) :
    (signingBlockBytes pairs).length = (pairSequence pairs).length + 32 := by
  simp only [signingBlockBytes, List.length_append, length_encode]
  have hmagic : apkSigningBlockMagic.length = 16 := by decide
  omega

/-- A pair takes twelve bytes more than its value. -/
theorem IdValuePair.length_encode (p : IdValuePair) : p.encode.length = p.value.length + 12 := by
  simp only [IdValuePair.encode, List.length_append, LittleEndian.length_encode]
  omega

/-- A sequence of pairs is its first pair and the sequence of the others. -/
theorem pairSequence_cons (p : IdValuePair) (rest : List IdValuePair) :
    pairSequence (p :: rest) = p.encode ++ pairSequence rest := by
  rw [pairSequence, List.flatMap_cons, pairSequence]

/-- The bytes behind a length prefix fill four bytes less than the whole. -/
theorem length_lenPrefixed (bytes : List UInt8) :
    (lenPrefixed bytes).length = bytes.length + 4 := by
  simp only [lenPrefixed, List.length_append, LittleEndian.length_encode]
  omega

end XposedJniTrace.Cert
