import Mathlib.Data.List.GetD
import XposedJniTrace.Sec.CertTermination

/-!
# Where a returned certificate comes from

None of the nested lengths is compared with its container, so the bytes returned are those at
the offset that the lengths lead to, with zeros past the end of the file. The condition below
says of the file's own bytes when that is a part of a v2 pair of the signing block, whatever
the uninitialised locals hold. The pairs of the block are the sequence that begins behind its
leading size; the walk of the function may leave that sequence.
-/

namespace XposedJniTrace.Cert

open Posix LittleEndian

variable {f : RegularFile} {pos S : ℕ}

/-- The offset of the trailing block size that the accepted record points to. -/
def trailer (f : RegularFile) (eocd : ℕ) : ℕ :=
  ((f.readInto (f.lseek eocd 12 .cur) 4 0).1 + 2 ^ 32 - 24) % 2 ^ 32

/-- The bytes from `lo` to `hi` are the signing block that the trailing size and magic delimit. -/
def SigningBlock (f : RegularFile) (pos lo hi : ℕ) : Prop :=
  ∃ eocd, Loop.Returns (scanBody f) ⟨0, pos⟩ (some eocd) ∧
    hi = trailer f eocd + 24 ∧ hi ≤ f.size ∧
    f.read (trailer f eocd + 8) 16 = apkSigningBlockMagic ∧
    lo + f.field (trailer f eocd) 8 + 8 = hi

/-- The offsets of the id-value pairs of a block: the first is behind the leading size, and each
of the others behind the extent of the pair in front of it. -/
inductive PairAt (f : RegularFile) (lo : ℕ) : ℕ → Prop
  | first : PairAt f lo (lo + 8)
  | next {start : ℕ} (hpair : PairAt f lo start) : PairAt f lo (start + 8 + f.field start 8)

/-- An id-value pair of the signing block with the v2 id, whose extent lies inside the block. -/
def V2Pair (f : RegularFile) (pos start len : ℕ) : Prop :=
  (∃ lo hi, SigningBlock f pos lo hi ∧ PairAt f lo start ∧ start + 8 + len ≤ hi) ∧
    f.field start 8 = len ∧ f.field (start + 8) 4 = signatureSchemeV2Magic

/-- The string is a piece of the file inside the value of such a pair. -/
def FromV2Pair (f : RegularFile) (pos : ℕ) (cert : List UInt8) : Prop :=
  ∃ start len p, V2Pair f pos start len ∧ start + 12 ≤ p ∧ p + cert.length ≤ start + 8 + len ∧
    p + cert.length ≤ f.size ∧ f.read p cert.length = cert

/-- The bytes from `q` on, zeros past the end of the file, occur inside the value of some such
pair. -/
def CopiedInV2Pair (f : RegularFile) (pos q n : ℕ) : Prop :=
  ∃ start len p, V2Pair f pos start len ∧ start + 12 ≤ p ∧ p + n ≤ start + 8 + len ∧
    ∀ j < n, f.bytes[p + j]? = some (f.bytes.getD (q + j) 0)

/-- The certificate that a v2 header's lengths lead to is empty, or lies in that pair, which is one
of the block. -/
def CertificateInside (f : RegularFile) (pos start len from4 size4 : ℕ) : Prop :=
  let range := certificateRange f from4 size4
  range.2 = 0 ∨ (V2Pair f pos start len ∧ range.1 + range.2 ≤ start + 8 + len)

/-- What a header that the walk comes to must satisfy: nothing where its length ends the walk;
with its whole id in the file, an enclosed certificate if the id is the v2 id; with its id cut
off by the end of the file, a byte that rules the v2 id out. -/
def HeaderEnclosed (f : RegularFile) (pos S : ℕ) (h : ℕ × ℕ) : Prop :=
  let size8 := f.readInto h.1 8 h.2
  size8.1 = S ∨
    if size8.2 + 4 ≤ f.size then
      f.field size8.2 4 = signatureSchemeV2Magic →
        ∀ size4 : UInt32, CertificateInside f pos h.1 size8.1 (size8.2 + 4) size4.toNat
    else ¬ f.read size8.2 4 <+: encode 4 signatureSchemeV2Magic

/-- The walk over the file comes to a header in a block of size `S`. -/
def ComesTo (f : RegularFile) (pos S : ℕ) (h : ℕ × ℕ) : Prop :=
  ∃ pairs k, EntersPairs f pos pairs S ∧ (∀ j < k, ¬ StopsAt f S ((hop f)^[j] (pairs, S))) ∧
    h = (hop f)^[k] (pairs, S)

/-- Every header that the walk over the file comes to encloses its certificate. -/
def CertificatesEnclosed (f : RegularFile) (pos : ℕ) : Prop :=
  ∀ S h, ComesTo f pos S h → HeaderEnclosed f pos S h

/-- At a header with the v2 id, the bytes of a certificate that the header does not enclose happen
to be in a v2 pair too. -/
def CopiedByAccident (f : RegularFile) (pos S : ℕ) (h : ℕ × ℕ) : Prop :=
  (f.readInto h.1 8 h.2).1 ≠ S ∧ f.field (h.1 + 8) 4 = signatureSchemeV2Magic ∧
    ∃ size4 : UInt32, ¬ CertificateInside f pos h.1 (f.readInto h.1 8 h.2).1
      (h.1 + 12) size4.toNat ∧
      CopiedInV2Pair f pos (certificateRange f (h.1 + 12) size4.toNat).1
        (certificateRange f (h.1 + 12) size4.toNat).2

/-- Reading never moves back over a variable. -/
theorem le_readInto_snd (pos width old : ℕ) : pos ≤ (f.readInto pos width old).2 := by
  rw [RegularFile.readInto_snd]
  omega

/-- The digests are skipped forwards, if at all. -/
theorem le_lseek_cur (pos : ℕ) {size4 : ℕ} (h : size4 < 2 ^ 32) :
    pos ≤ f.lseek pos (offT size4) .cur := by
  simp only [RegularFile.lseek, RegularFile.seekTarget, offT]
  split <;> split <;> omega

/-- The certificate lies behind the six lengths in front of it. -/
theorem le_certificateRange (from4 : ℕ) {size4 : ℕ} (h : size4 < 2 ^ 32) :
    from4 ≤ (certificateRange f from4 size4).1 := by
  have hlt : ∀ {p old : ℕ}, old < 2 ^ 32 → (f.readInto p 4 old).1 < 2 ^ 32 :=
    fun hold => RegularFile.readInto_fst_lt 4 hold
  simp only [certificateRange]
  calc from4 ≤ _ := le_readInto_snd _ 4 _
    _ ≤ _ := le_readInto_snd _ 4 _
    _ ≤ _ := le_readInto_snd _ 4 _
    _ ≤ _ := le_readInto_snd _ 4 _
    _ ≤ _ := le_lseek_cur _ (hlt (hlt (hlt (hlt h))))
    _ ≤ _ := le_readInto_snd _ 4 _
    _ ≤ _ := le_readInto_snd _ 4 _

/-- A string that fits in the file is a piece of it. -/
theorem readString_of_le {start count : ℕ} (h : start + count ≤ f.size) :
    readString f start count = f.read start count := by
  rw [readString, RegularFile.length_read_of_le h, Nat.sub_self, List.replicate_zero,
    List.append_nil]

/-- A string that is read has the length that was asked for. -/
theorem length_readString (start count : ℕ) : (readString f start count).length = count := by
  simp only [readString, List.length_append, List.length_replicate, RegularFile.length_read]
  omega

/-- The bytes of a string that the function returns. -/
theorem getElem?_readString {start count j : ℕ} (hj : j < count) :
    (readString f start count)[j]? = some (f.bytes.getD (start + j) 0) := by
  rw [readString, List.getElem?_append, RegularFile.length_read]
  split
  · have hlt : start + j < f.bytes.length := by
      simp only [RegularFile.size] at *
      omega
    rw [RegularFile.read, List.getElem?_take_of_lt hj, List.getElem?_drop,
      List.getD_eq_getElem _ _ hlt, List.getElem?_eq_getElem hlt]
  · have hge : f.bytes.length ≤ start + j := by
      simp only [RegularFile.size] at *
      omega
    rw [List.getElem?_replicate, if_pos (by omega), List.getD_eq_default _ _ hge]

/-- The extent of a pair in the block ends inside the file. -/
theorem V2Pair.le_size {start len : ℕ} (h : V2Pair f pos start len) : start + 8 + len ≤ f.size := by
  obtain ⟨⟨lo, hi, ⟨eocd, -, -, hle, -, -⟩, -, hend⟩, -, -⟩ := h
  omega

/-- A returned string is a piece of a v2 pair exactly when its bytes are copied there. -/
theorem fromV2Pair_readString {q n : ℕ} :
    FromV2Pair f pos (readString f q n) ↔ CopiedInV2Pair f pos q n := by
  unfold FromV2Pair CopiedInV2Pair
  rw [length_readString]
  constructor
  · intro hfrom
    obtain ⟨start, len, p, hpair, hlo, hhi, -, hread⟩ := hfrom
    refine ⟨start, len, p, hpair, hlo, hhi, fun j hj => ?_⟩
    rw [← getElem?_readString hj, ← hread, RegularFile.read, List.getElem?_take_of_lt hj,
      List.getElem?_drop]
  · intro hcopied
    obtain ⟨start, len, p, hpair, hlo, hhi, hbytes⟩ := hcopied
    have hsize := hpair.le_size
    refine ⟨start, len, p, hpair, hlo, hhi, by omega, ?_⟩
    apply List.ext_getElem?
    intro j
    by_cases hj : j < n
    · rw [getElem?_readString hj, RegularFile.read, List.getElem?_take_of_lt hj, List.getElem?_drop,
        hbytes j hj]
    · rw [List.getElem?_eq_none, List.getElem?_eq_none]
      · rw [length_readString]
        omega
      · rw [RegularFile.length_read]
        omega

/-- A string read inside a pair comes from it. -/
theorem fromV2Pair_of_inPlace {start len q n : ℕ} (hpair : V2Pair f pos start len)
    (hge : start + 12 ≤ q) (hle : q + n ≤ start + 8 + len) :
    FromV2Pair f pos (readString f q n) := by
  have hsize := hpair.le_size
  refine ⟨start, len, q, hpair, hge, ?_, ?_, ?_⟩
  · rwa [length_readString]
  · rw [length_readString]
    omega
  · rw [length_readString, readString_of_le (by omega)]

/-- The string that an enclosed certificate makes is empty or comes from a v2 pair. -/
theorem CertificateInside.string {start len size4 : ℕ} (hsize4 : size4 < 2 ^ 32)
    (h : CertificateInside f pos start len (start + 12) size4) :
    readString f (certificateRange f (start + 12) size4).1
      (certificateRange f (start + 12) size4).2 = [] ∨
      FromV2Pair f pos (readString f (certificateRange f (start + 12) size4).1
        (certificateRange f (start + 12) size4).2) := by
  have hge := le_certificateRange (f := f) (start + 12) hsize4
  rcases h with hzero | ⟨hpair, hle⟩
  · left
    apply List.eq_nil_of_length_eq_zero
    rw [length_readString, hzero]
  · exact .inr (fromV2Pair_of_inPlace hpair hge hle)

/-- Where a certificate that is not enclosed makes such a string, its bytes are copied in a v2
pair. -/
theorem copied_of_not_inside {start len size4 : ℕ}
    (hnot : ¬ CertificateInside f pos start len (start + 12) size4)
    (hstring : readString f (certificateRange f (start + 12) size4).1
        (certificateRange f (start + 12) size4).2 = [] ∨
      FromV2Pair f pos (readString f (certificateRange f (start + 12) size4).1
        (certificateRange f (start + 12) size4).2)) :
    CopiedInV2Pair f pos (certificateRange f (start + 12) size4).1
      (certificateRange f (start + 12) size4).2 := by
  rcases hstring with hnil | hfrom
  · have hlen := congrArg List.length hnil
    rw [length_readString] at hlen
    exact absurd (.inl hlen) hnot
  · exact fromV2Pair_readString.mp hfrom

/-- The block ends below 2^32, in front of a magic that is no zero, so no piece of it is as long
as the longest string of zeros. -/
theorem zeros_not_fromV2Pair {n : ℕ} (hn : 2 ^ 32 ≤ n + 1) :
    ¬ FromV2Pair f pos (List.replicate n 0) := by
  intro hfrom
  obtain ⟨start, len, p, ⟨⟨lo, hi, ⟨eocd, -, hhi, hle, hmagic, -⟩, -, hend⟩, -, -⟩, hlo, hup, -,
      hread⟩ := hfrom
  rw [List.length_replicate] at hup hread
  have htrailer : trailer f eocd < 2 ^ 32 := Nat.mod_lt _ (by norm_num)
  have hzero : f.bytes[trailer f eocd + 8]? = some 0 := by
    have hget := congrArg (fun bytes => bytes[trailer f eocd + 8 - p]?) hread
    simp only [RegularFile.read, List.getElem?_replicate] at hget
    rw [List.getElem?_take_of_lt (by omega), List.getElem?_drop, if_pos (by omega),
      show p + (trailer f eocd + 8 - p) = trailer f eocd + 8 by omega] at hget
    exact hget
  have hbyte : f.bytes[trailer f eocd + 8]? = some 0x41 := by
    have hget := congrArg (fun bytes => bytes[0]?) hmagic
    simp only [RegularFile.read] at hget
    rw [List.getElem?_take_of_lt (by omega), List.getElem?_drop, Nat.add_zero] at hget
    exact hget
  rw [hzero] at hbyte
  exact absurd (Option.some.inj hbyte) (by decide)

/-- At the end of the file every length keeps the value of the uninitialised one. -/
theorem certificateRange_of_size_le {from4 size4 : ℕ} (hle : f.size ≤ from4)
    (hlt : size4 < 2 ^ 32) :
    f.size ≤ (certificateRange f from4 size4).1 ∧ (certificateRange f from4 size4).2 = size4 := by
  have hseek := le_lseek_cur (f := f) from4 hlt
  simp only [certificateRange, RegularFile.readInto_of_size_le hle,
    RegularFile.readInto_of_size_le (hle.trans hseek)]
  exact ⟨hle.trans hseek, trivial⟩

/-- A string read at the end of the file is all zeros. -/
theorem readString_of_size_le {start : ℕ} (h : f.size ≤ start) (count : ℕ) :
    readString f start count = List.replicate count 0 := by
  rw [readString, RegularFile.read_of_size_le h, List.nil_append, List.length_nil, Nat.sub_zero]

/-- A header whose id is wholly in the file has its length there too. -/
theorem whole_header {h : ℕ × ℕ} (hle : (f.readInto h.1 8 h.2).2 + 4 ≤ f.size) :
    (f.readInto h.1 8 h.2).2 = h.1 + 8 := by
  have hoff := RegularFile.readInto_snd (f := f) h.1 8 h.2
  omega

/-- A variable can be completed to the v2 id exactly when the bytes read into it begin it. -/
theorem prefix_of_overlay {p : ℕ} {old : ℕ}
    (h : (f.readInto p 4 old).1 = signatureSchemeV2Magic) :
    f.read p 4 <+: encode 4 signatureSchemeV2Magic := by
  have hlen : (f.read p 4).length ≤ 4 := by
    rw [RegularFile.length_read]
    omega
  have htake := take_encode_overlay old hlen
  change overlay old (f.read p 4) = _ at h
  rw [h] at htake
  rw [← htake]
  exact List.take_prefix _ _

/-- What the walk returns at an enclosed header is empty or comes from a v2 pair. -/
theorem HeaderEnclosed.returns {junk : Uninit} {h : ℕ × ℕ} {iter : ℕ} {cert : List UInt8}
    (henc : HeaderEnclosed f pos S h)
    (hbody : pairBody f S junk ⟨h.1, h.2, iter⟩ = .inr cert) :
    cert = [] ∨ FromV2Pair f pos cert := by
  have hjunk : (junk.id iter).toNat < 256 ^ 4 := (junk.id iter).toNat_lt
  simp only [pairBody] at hbody
  split at hbody
  · exact .inl (Sum.inr.inj hbody).symm
  · next hne =>
    rcases henc with hsize | henc
    · exact absurd hsize hne
    · split at hbody
      · next hid =>
        obtain rfl := Sum.inr.inj hbody
        by_cases hle : (f.readInto h.1 8 h.2).2 + 4 ≤ f.size
        · rw [if_pos hle] at henc
          rw [RegularFile.readInto_of_le hle hjunk] at hid ⊢
          have hinside := henc hid junk.size4
          rw [whole_header hle] at hinside ⊢
          exact hinside.string junk.size4.toNat_lt
        · rw [if_neg hle] at henc
          exact absurd (prefix_of_overlay hid) henc
      · cases hbody

/-- At a header that is not enclosed, some values of the locals make the walk return a string
that comes from no v2 pair, but by accident. -/
theorem returns_of_not_enclosed {h : ℕ × ℕ} (junk8 : UInt64) (k : ℕ)
    (hnot : ¬ HeaderEnclosed f pos S h) (haccident : ¬ CopiedByAccident f pos S h) :
    ∃ junk : Uninit, junk.size8 = junk8 ∧ (∀ j < k, junk.id j = 0) ∧
      ∃ cert, pairBody f S junk ⟨h.1, h.2, k⟩ = .inr cert ∧
        ¬ (cert = [] ∨ FromV2Pair f pos cert) := by
  obtain ⟨hne, hbad⟩ := not_or.mp hnot
  by_cases hle : (f.readInto h.1 8 h.2).2 + 4 ≤ f.size
  · -- the whole id is in the file: choose the length that the certificate goes wrong with
    rw [if_pos hle] at hbad
    obtain ⟨hid, hbad⟩ := Classical.not_imp.mp hbad
    obtain ⟨size4, hout⟩ := not_forall.mp hbad
    let range := certificateRange f ((f.readInto h.1 8 h.2).2 + 4) size4.toNat
    refine ⟨⟨size4, junk8, fun _ => 0⟩, rfl, fun _ _ => rfl, readString f range.1 range.2, ?_, ?_⟩
    · simp only [pairBody, if_neg hne, RegularFile.readInto_of_le hle
        (show (0 : UInt32).toNat < 256 ^ 4 by decide), hid, if_true, range]
    · simp only [range]
      rw [whole_header hle] at hid hout ⊢
      intro hstring
      exact haccident ⟨hne, hid, size4, hout, copied_of_not_inside hout hstring⟩
  · -- the id is cut off: complete it, and ask for the longest string
    rw [if_neg hle, not_not] at hbad
    have hlen := RegularFile.length_read (f := f) (f.readInto h.1 8 h.2).2 4
    have hid : f.readInto (f.readInto h.1 8 h.2).2 4 signatureSchemeV2Magic =
        (signatureSchemeV2Magic,
          (f.readInto h.1 8 h.2).2 + (f.read (f.readInto h.1 8 h.2).2 4).length) := by
      rw [RegularFile.readInto, overlay_of_prefix hbad]
    let range := certificateRange f
      ((f.readInto h.1 8 h.2).2 + (f.read (f.readInto h.1 8 h.2).2 4).length)
      (0xffffffff : UInt32).toNat
    refine ⟨⟨0xffffffff, junk8, fun i => if i = k then 0x7109871a else 0⟩, rfl,
      fun j hj => if_neg (by omega), readString f range.1 range.2, ?_, ?_⟩
    · have hmagic : (0x7109871a : UInt32).toNat = signatureSchemeV2Magic := by decide
      simp only [pairBody, if_neg hne, if_true, hmagic, hid, range]
    · obtain ⟨hpast, hcount⟩ : f.size ≤ range.1 ∧ range.2 = (0xffffffff : UInt32).toNat :=
        certificateRange_of_size_le (by omega) (by decide)
      rw [readString_of_size_le hpast, hcount]
      intro hzeros
      rcases hzeros with hnil | hfrom
      · have hzero := congrArg List.length hnil
        rw [List.length_replicate] at hzero
        exact absurd hzero (by decide)
      · exact zeros_not_fromV2Pair (by decide) hfrom

/-- While the ids stay zero the walk is the iteration of its hops. -/
theorem returns_hops_iff {junk : Uninit} {h : ℕ × ℕ} {k iter : ℕ} {cert : List UInt8}
    (hzero : ∀ j < k, junk.id (iter + j) = 0)
    (hstops : ∀ j < k, ¬ StopsAt f S ((hop f)^[j] h)) :
    Loop.Returns (pairBody f S junk) ⟨h.1, h.2, iter⟩ cert ↔
      Loop.Returns (pairBody f S junk) ⟨((hop f)^[k] h).1, ((hop f)^[k] h).2, iter + k⟩ cert := by
  induction k generalizing h iter with
  | zero => rfl
  | succ k ih =>
    rw [Loop.returns_of_inl
        (pairBody_of_zero_id (h := h) iter (hzero 0 (by omega)) (hstops 0 (by omega))),
      Function.iterate_succ_apply, show iter + (k + 1) = iter + 1 + k by omega]
    apply ih
    · intro j hj
      rw [show iter + 1 + j = iter + (j + 1) by omega]
      exact hzero (j + 1) (by omega)
    · intro j hj
      rw [← Function.iterate_succ_apply]
      exact hstops (j + 1) (by omega)

/-- The walk leaves at one of its hops, with no stop before it. -/
theorem returns_at_hop {junk : Uninit} (start : ℕ × ℕ) {cert : List UInt8}
    (h : Loop.Returns (pairBody f S junk) ⟨start.1, start.2, 0⟩ cert) :
    ∃ k, (∀ j < k, ¬ StopsAt f S ((hop f)^[j] start)) ∧
      pairBody f S junk ⟨((hop f)^[k] start).1, ((hop f)^[k] start).2, k⟩ = .inr cert := by
  let onWalk : PairState → Prop := fun s =>
    s = ⟨((hop f)^[s.iter] start).1, ((hop f)^[s.iter] start).2, s.iter⟩ ∧
      ∀ j < s.iter, ¬ StopsAt f S ((hop f)^[j] start)
  have hstart : onWalk ⟨start.1, start.2, 0⟩ := ⟨rfl, fun j hj => absurd hj (by simp)⟩
  obtain ⟨last, ⟨hlast, hstops⟩, hbody⟩ := h.invariant (I := onWalk) hstart (by
    intro s t hwalk hbody
    obtain ⟨hs, hstops⟩ := hwalk
    rw [hs] at hbody
    rcases pairBody_inl_or_inr (S := S) junk ((hop f)^[s.iter] start) s.iter with
      ⟨c, hc⟩ | hhop
    · rw [hc] at hbody
      cases hbody
    · have hno : ¬ StopsAt f S ((hop f)^[s.iter] start) := by
        intro hstop
        obtain ⟨c, hc⟩ := pairBody_of_stopsAt junk s.iter hstop
        rw [hc] at hhop
        cases hhop
      rw [hhop] at hbody
      obtain rfl := Sum.inl.inj hbody
      refine ⟨?_, ?_⟩
      · rw [Function.iterate_succ_apply']
      · intro j hj
        rcases Nat.lt_succ_iff_lt_or_eq.mp hj with hlt | rfl
        · exact hstops j hlt
        · exact hno)
  rw [hlast] at hbody
  exact ⟨last.iter, hstops, hbody⟩

/-- Where every header that the walk comes to encloses its certificate, every string that the
function can return is empty or comes from a v2 pair of the signing block. Where they all do, either
every header encloses its certificate, or some header makes up for its own by accident. -/
theorem readCertificate_enclosed (f : RegularFile) (pos : ℕ) :
    (CertificatesEnclosed f pos →
      ∀ junk cert, ReadsCertificate f pos junk cert → cert = [] ∨ FromV2Pair f pos cert) ∧
    ((∀ junk cert, ReadsCertificate f pos junk cert → cert = [] ∨ FromV2Pair f pos cert) →
      CertificatesEnclosed f pos ∨ ∃ S h, ComesTo f pos S h ∧ CopiedByAccident f pos S h) := by
  obtain ⟨found, hfound⟩ := scan_returns f pos
  constructor
  · intro henc junk cert hcert
    rw [readsCertificate_iff hfound] at hcert
    cases hblock : found.bind fun e => signingBlock f e junk.size8.toNat with
    | none =>
      rw [hblock] at hcert
      exact .inl hcert
    | some block =>
      rw [hblock] at hcert
      obtain ⟨eocd, rfl, hblock'⟩ := Option.bind_eq_some_iff.mp hblock
      obtain ⟨k, hstops, hbody⟩ := returns_at_hop (block.1, block.2) hcert
      have hcomes : ComesTo f pos block.2 ((hop f)^[k] (block.1, block.2)) :=
        ⟨block.1, k, ⟨eocd, junk.size8, hfound, hblock'⟩, hstops, rfl⟩
      exact (henc block.2 _ hcomes).returns hbody
  · intro hall
    by_contra hneither
    obtain ⟨hnot, haccident⟩ := not_or.mp hneither
    refine hnot fun S h hcomes => ?_
    by_contra hopen
    have hnone : ¬ CopiedByAccident f pos S h := fun hcopied => haccident ⟨S, h, hcomes, hcopied⟩
    obtain ⟨pairs, k, ⟨eocd, junk8, hscan, hblock⟩, hstops, rfl⟩ := hcomes
    obtain ⟨junk, hjunk, hzero, cert, hbody, hbad⟩ := returns_of_not_enclosed junk8 k hopen hnone
    refine hbad (hall junk cert ?_)
    rw [readsCertificate_iff hscan, Option.bind_some, hjunk, hblock]
    have hzero' : ∀ j < k, junk.id (0 + j) = 0 := by
      intro j hj
      rw [Nat.zero_add]
      exact hzero j hj
    have hwalk : Loop.Returns (pairBody f S junk) ⟨pairs, S, 0⟩ cert ↔ _ :=
      returns_hops_iff (h := (pairs, S)) hzero' hstops
    rw [Nat.zero_add] at hwalk
    exact hwalk.mpr ((Loop.returns_of_inr hbody).mpr rfl)

/-- A file of 90 bytes whose v2 pair, of 36 bytes, gives its certificate the length 200. -/
def overlongFile : RegularFile where
  bytes := encode 8 60 ++ (encode 8 28 ++ (encode 4 signatureSchemeV2Magic ++
    (List.replicate 20 0 ++ (encode 4 200 ++ (encode 8 60 ++ (apkSigningBlockMagic ++
      (encode 4 eocdMagic ++ (List.replicate 12 0 ++ (encode 4 68 ++ encode 2 0)))))))))
  size_lt := by decide +kernel

/-- On that file the function returns the rest of the file from the end of the pair on, and 154
zeros, which is longer than the file. -/
theorem readCertificate_overlong :
    ¬ ∀ (f : RegularFile) (pos : ℕ) (junk : Uninit) (cert : List UInt8),
      ReadsCertificate f pos junk cert → cert = [] ∨ FromV2Pair f pos cert := by
  intro hall
  have hret : ReadsCertificate overlongFile 0 ⟨0, 0, fun _ => 0⟩
      (overlongFile.bytes.drop 44 ++ List.replicate 154 0) := ⟨1, by decide +kernel⟩
  have hsize : overlongFile.size = 90 := by decide +kernel
  have hlen : (overlongFile.bytes.drop 44 ++ List.replicate 154 0).length = 200 := by
    decide +kernel
  rcases hall _ _ _ _ hret with hnil | ⟨start, len, p, -, -, -, hle, -⟩
  · rw [hnil] at hlen
    cases hlen
  · rw [hlen, hsize] at hle
    omega

end XposedJniTrace.Cert
