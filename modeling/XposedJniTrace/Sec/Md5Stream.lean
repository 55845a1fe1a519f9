import XposedJniTrace.Sec.Md5Buffer

/-!
# Streaming

Sequences of `update` and `finalize` on one object. However a message is cut into chunks, the
object holds the message, and `finalize` pads it as the definition pads it, in one block or in
two. A finalized object keeps its digest under every further call.
-/

namespace XposedJniTrace.Md5Utils

open BlockStream

/-! ## Budgets -/

/-- More fuel changes nothing about an `update` that returns. -/
theorem update_mono {fuel more : ℕ} {input : List UInt8} {length : UInt32} {md last : Md5Utils}
    (h : update fuel input length md = some last) (hle : fuel ≤ more) :
    update more input length md = some last := by
  rcases Nat.lt_or_ge length.toNat (64 - md.index.toNat) with hshort | hlong
  · rwa [update_of_short hshort] at h ⊢
  · rw [← firstpart_toNat, ge_iff_le, ← UInt32.le_iff_toNat_le] at hlong
    rw [update_of_ge hlong] at h ⊢
    obtain ⟨r, hrun, hr⟩ := Option.bind_eq_some_iff.mp h
    exact Option.bind_eq_some_iff.mpr ⟨r, Loop.run_mono hrun hle, hr⟩

/-- The number of padding bytes that `finalize` takes. -/
def padLen (md : Md5Utils) : UInt32 :=
  if md.index < 56 then 56 - md.index else 120 - md.index

/-- `finalize` on an unfinished object: the two updates, and the state as it is output. -/
theorem finalize_of_open {md : Md5Utils} (h : md.finalized = false) (fuel : ℕ) :
    finalize fuel md = (update fuel padding md.padLen md).bind fun padded =>
      (update fuel (encode [md.count0, md.count1]) 8 padded).bind fun full =>
        some { full with
          digest := encode [full.state.a, full.state.b, full.state.c, full.state.d]
          buffer := Buffer.zero
          count0 := 0
          count1 := 0
          finalized := true } := by
  have hopen : (!md.finalized) = true := by
    rw [h]
    rfl
  exact if_pos hopen

/-- `finalize` on a finalized object does nothing. -/
theorem finalize_of_finalized {md : Md5Utils} (h : md.finalized = true) (fuel : ℕ) :
    finalize fuel md = some md := by
  have hdone : ¬ (!md.finalized) = true := by
    rw [h]
    decide
  exact if_neg hdone

/-- More fuel changes nothing about a `finalize` that returns. -/
theorem finalize_mono {fuel more : ℕ} {md last : Md5Utils}
    (h : finalize fuel md = some last) (hle : fuel ≤ more) : finalize more md = some last := by
  cases hdone : md.finalized with
  | false =>
    rw [finalize_of_open hdone] at h ⊢
    obtain ⟨padded, hpad, h⟩ := Option.bind_eq_some_iff.mp h
    obtain ⟨full, hbits, h⟩ := Option.bind_eq_some_iff.mp h
    exact Option.bind_eq_some_iff.mpr ⟨padded, update_mono hpad hle,
      Option.bind_eq_some_iff.mpr ⟨full, update_mono hbits hle, h⟩⟩
  | true => rwa [finalize_of_finalized hdone] at h ⊢

/-- More fuel changes nothing about a call that returns. -/
theorem Call.run_mono {fuel more : ℕ} {call : Call} {md last : Md5Utils}
    (h : call.run fuel md = some last) (hle : fuel ≤ more) : call.run more md = some last := by
  cases call with
  | update chunk => exact update_mono h hle
  | finalize => exact finalize_mono h hle

/-- More fuel changes nothing about calls that return. -/
theorem runCalls_mono {fuel more : ℕ} {calls : List Call} {md last : Md5Utils}
    (h : runCalls fuel calls md = some last) (hle : fuel ≤ more) :
    runCalls more calls md = some last := by
  induction calls generalizing md with
  | nil => exact h
  | cons call rest ih =>
    obtain ⟨mid, hcall, hrest⟩ := Option.bind_eq_some_iff.mp h
    exact Option.bind_eq_some_iff.mpr ⟨mid, Call.run_mono hcall hle, ih hrest⟩

/-- No calls leave the object as it is. -/
theorem Runs.nil (md : Md5Utils) : Runs [] md md := ⟨0, rfl⟩

/-- A call in front of calls that return. -/
theorem Runs.cons {call : Call} {rest : List Call} {fuel : ℕ} {md mid last : Md5Utils}
    (h : call.run fuel md = some mid) (hrest : Runs rest mid last) :
    Runs (call :: rest) md last := by
  obtain ⟨fuel', h'⟩ := hrest
  exact ⟨max fuel fuel', Option.bind_eq_some_iff.mpr
    ⟨mid, Call.run_mono h (Nat.le_max_left _ _), runCalls_mono h' (Nat.le_max_right _ _)⟩⟩

/-- Calls behind calls that return. -/
theorem Runs.append {first second : List Call} {md mid last : Md5Utils}
    (h₁ : Runs first md mid) (h₂ : Runs second mid last) : Runs (first ++ second) md last := by
  induction first generalizing md with
  | nil =>
    obtain ⟨fuel, h⟩ := h₁
    cases h
    exact h₂
  | cons call rest ih =>
    obtain ⟨fuel, h⟩ := h₁
    obtain ⟨next, hcall, hrest⟩ := Option.bind_eq_some_iff.mp h
    exact Runs.cons hcall (ih ⟨fuel, hrest⟩)

/-- Calls on an object have one outcome. -/
theorem Runs.unique {calls : List Call} {md first second : Md5Utils} (h₁ : Runs calls md first)
    (h₂ : Runs calls md second) : first = second := by
  obtain ⟨n, hn⟩ := h₁
  obtain ⟨m, hm⟩ := h₂
  have hn' := runCalls_mono hn (Nat.le_max_left n m)
  have hm' := runCalls_mono hm (Nat.le_max_right n m)
  exact Option.some.inj (hn'.symm.trans hm')

/-! ## Padding -/

/-- `bits` is the length of the message in bits, as the definition encodes it. -/
theorem Holds.bits_eq {msg : List UInt8} {md : Md5Utils} (h : Holds msg md) :
    encode [md.count0, md.count1] = LittleEndian.encode 8 (8 * msg.length) := by
  have hcount := h.count
  have h0 := md.count0.toNat_lt
  have h1 := md.count1.toNat_lt
  have hlow : md.count0.toNat = 8 * msg.length % 256 ^ 4 := by omega
  have hhigh : md.count1.toNat = 8 * msg.length / 256 ^ 4 % 256 ^ 4 := by omega
  have hcut := LittleEndian.encode_add 4 4 (8 * msg.length)
  rw [encode, List.flatMap_cons, List.flatMap_cons, List.flatMap_nil, List.append_nil,
    encodeWord_eq, encodeWord_eq, hlow, hhigh, LittleEndian.encode_mod, LittleEndian.encode_mod]
  exact hcut.symm

/-- The length of the padding, which brings the buffer to eight bytes of its end. -/
theorem padLen_toNat (md : Md5Utils) : md.padLen.toNat = (119 - md.index.toNat) % 64 + 1 := by
  have hlt := index_lt md
  unfold padLen
  split_ifs with h
  · rw [UInt32.lt_iff_toNat_lt] at h
    change md.index.toNat < 56 at h
    rw [UInt32.toNat_sub_of_le _ _ (UInt32.le_iff_toNat_le.mpr (Nat.le_of_lt h))]
    change 56 - md.index.toNat = _
    omega
  · rw [UInt32.lt_iff_toNat_lt] at h
    change ¬ md.index.toNat < 56 at h
    have hle : md.index ≤ 120 := by
      rw [UInt32.le_iff_toNat_le]
      change md.index.toNat ≤ 120
      omega
    rw [UInt32.toNat_sub_of_le _ _ hle]
    change 120 - md.index.toNat = _
    omega

/-- What `finalize` appends is what the definition appends. -/
theorem Holds.padding_eq {msg : List UInt8} {md : Md5Utils} (h : Holds msg md) :
    padding.take md.padLen.toNat ++ encode [md.count0, md.count1] = Md5.padding msg.length := by
  have hzeros : (119 - msg.length % 64) % 64 ≤ 63 := by omega
  rw [h.bits_eq, padLen_toNat, h.index_eq, padding, List.take_succ_cons, List.take_replicate,
    Nat.min_eq_left hzeros, Md5.padding]

/-- The padding is taken from the array that holds it. -/
theorem padLen_le (md : Md5Utils) : md.padLen.toNat ≤ padding.length := by
  rw [padLen_toNat]
  change _ ≤ 64
  omega

/-- The length of the padding is one that `update` accepts. -/
theorem padLen_lt (md : Md5Utils) : md.padLen.toNat < maxLength := by
  have hle := padLen_le md
  change _ ≤ 64 at hle
  unfold maxLength
  omega

/-- The bit count is eight bytes long. -/
theorem bits_length (md : Md5Utils) :
    (8 : UInt32).toNat ≤ (encode [md.count0, md.count1]).length :=
  Nat.le_refl 8

/-- `finalize` on an unfinished object, when its two updates return. -/
theorem finalize_of_updates {fuel₁ fuel₂ : ℕ} {md padded full : Md5Utils}
    (h : md.finalized = false) (hpad : update fuel₁ padding md.padLen md = some padded)
    (hbits : update fuel₂ (encode [md.count0, md.count1]) 8 padded = some full) :
    finalize (max fuel₁ fuel₂) md = some { full with
      digest := Md5.output full.state
      buffer := Buffer.zero
      count0 := 0
      count1 := 0
      finalized := true } := by
  rw [finalize_of_open h, update_mono hpad (Nat.le_max_left _ _), Option.bind_some,
    update_mono hbits (Nat.le_max_right _ _), Option.bind_some, encode_state]

/-- `finalize` returns, whatever the object holds. -/
theorem finalize_returns (md : Md5Utils) : ∃ fuel last, finalize fuel md = some last := by
  cases h : md.finalized with
  | false =>
    obtain ⟨fuel₁, padded, hpad⟩ := update_returns (padLen_le md) (padLen_lt md) md
    obtain ⟨fuel₂, full, hbits⟩ := update_returns (bits_length md) (by decide) padded
    exact ⟨_, _, finalize_of_updates h hpad hbits⟩
  | true => exact ⟨0, md, finalize_of_finalized h 0⟩

/-- Finalizing an object that holds a message leaves the digest of the message. -/
theorem finalize_holds {msg : List UInt8} {md : Md5Utils} (h : Holds msg md) :
    ∃ fuel last, finalize fuel md = some last ∧ last.finalized = true ∧
      last.digest = Md5.digest msg := by
  obtain ⟨fuel₁, padded, hpad, hpadded⟩ := update_holds h (padLen_le md) (padLen_lt md)
  obtain ⟨fuel₂, full, hbits, hfull⟩ := update_holds hpadded (bits_length md) (by decide)
  have hall : (encode [md.count0, md.count1]).take (8 : UInt32).toNat =
      encode [md.count0, md.count1] := rfl
  rw [hall, List.append_assoc, h.padding_eq] at hfull
  refine ⟨_, _, finalize_of_updates h.finalized hpad hbits, rfl, ?_⟩
  rw [Md5.digest, ← hfull.state]

/-! ## Runs -/

/-- A call whose input, if it has one, leaves one block of room below `2^32`. -/
def Call.Short : Call → Prop
  | .update chunk => chunk.length < maxLength
  | .finalize => True

/-- The length that `update` is passed is that of its chunk. -/
theorem toNat_length {chunk : List UInt8} (h : chunk.length < maxLength) :
    (UInt32.ofNat chunk.length).toNat = chunk.length :=
  UInt32.toNat_ofNat_of_lt' (Nat.lt_of_lt_of_le h (by decide))

/-- A short call returns, whatever the object holds. -/
theorem Call.Short.returns {call : Call} (h : call.Short) (md : Md5Utils) :
    ∃ fuel last, call.run fuel md = some last := by
  cases call with
  | update chunk =>
    have hlen := toNat_length h
    exact update_returns (Nat.le_of_eq hlen) (hlen.symm ▸ h) md
  | finalize => exact finalize_returns md

/-- Short calls return, whatever the object holds. -/
theorem runs_of_short {calls : List Call} (h : ∀ call ∈ calls, call.Short) (md : Md5Utils) :
    ∃ last, Runs calls md last := by
  induction calls generalizing md with
  | nil => exact ⟨md, Runs.nil md⟩
  | cons call rest ih =>
    obtain ⟨hcall, hrest⟩ := List.forall_mem_cons.mp h
    obtain ⟨fuel, mid, hmid⟩ := hcall.returns md
    obtain ⟨last, hlast⟩ := ih hrest mid
    exact ⟨last, Runs.cons hmid hlast⟩

/-- Updates append their chunks to the message that the object holds. -/
theorem runs_updates {msg : List UInt8} {md : Md5Utils} (h : Holds msg md)
    {chunks : List (List UInt8)} (hshort : ∀ chunk ∈ chunks, chunk.length < maxLength) :
    ∃ last, Runs (chunks.map .update) md last ∧ Holds (msg ++ chunks.flatten) last := by
  induction chunks generalizing msg md with
  | nil =>
    refine ⟨md, Runs.nil md, ?_⟩
    rwa [List.flatten_nil, List.append_nil]
  | cons chunk rest ih =>
    obtain ⟨hchunk, hrest⟩ := List.forall_mem_cons.mp hshort
    have hlen := toNat_length hchunk
    obtain ⟨fuel, mid, hmid, hholds⟩ := update_holds h (Nat.le_of_eq hlen) (hlen.symm ▸ hchunk)
    rw [hlen, List.take_length] at hholds
    obtain ⟨last, hruns, hlast⟩ := ih hholds hrest
    have hcall : Call.run fuel md (.update chunk) = some mid := hmid
    refine ⟨last, Runs.cons hcall hruns, ?_⟩
    rwa [List.flatten_cons, ← List.append_assoc]

/-- An initialised object holds the empty message, whatever its memory held. -/
theorem holds_init (memory : Md5Utils) : Holds [] memory.init where
  finalized := rfl
  count := rfl
  state := rfl
  buffer := rfl

/-- An update touches neither the digest nor the flag that it is there. -/
theorem update_digest {fuel : ℕ} {input : List UInt8} {length : UInt32} {md last : Md5Utils}
    (h : update fuel input length md = some last) :
    last.finalized = md.finalized ∧ last.digest = md.digest := by
  rcases Nat.lt_or_ge length.toNat (64 - md.index.toNat) with hshort | hlong
  · rw [update_of_short hshort] at h
    cases h
    exact ⟨rfl, rfl⟩
  · rw [← firstpart_toNat, ge_iff_le, ← UInt32.le_iff_toNat_le] at hlong
    rw [update_of_ge hlong] at h
    obtain ⟨r, -, hr⟩ := Option.bind_eq_some_iff.mp h
    cases hr
    exact ⟨rfl, rfl⟩

/-- A call keeps the digest of a finalized object. -/
theorem Call.run_of_finalized {fuel : ℕ} {call : Call} {md last : Md5Utils}
    (hdone : md.finalized = true) (h : call.run fuel md = some last) :
    last.finalized = true ∧ last.digest = md.digest := by
  cases call with
  | update chunk =>
    obtain ⟨hfin, hdigest⟩ := update_digest h
    exact ⟨hfin.trans hdone, hdigest⟩
  | finalize =>
    cases (finalize_of_finalized hdone fuel).symm.trans h
    exact ⟨hdone, rfl⟩

/-- Further calls keep the digest of a finalized object. -/
theorem Runs.of_finalized {calls : List Call} {md last : Md5Utils} (hdone : md.finalized = true)
    (h : Runs calls md last) : last.finalized = true ∧ last.digest = md.digest := by
  obtain ⟨fuel, h⟩ := h
  induction calls generalizing md with
  | nil =>
    cases h
    exact ⟨hdone, rfl⟩
  | cons call rest ih =>
    obtain ⟨mid, hcall, hrest⟩ := Option.bind_eq_some_iff.mp h
    obtain ⟨hmid, hdigest⟩ := Call.run_of_finalized hdone hcall
    obtain ⟨hlast, hkept⟩ := ih hmid hrest
    exact ⟨hlast, hkept.trans hdigest⟩

/-! ## The digest in hexadecimal -/

/-- `%02x` prints the two digits of a byte. -/
theorem sprintf02x_eq (b : UInt8) :
    sprintf02x b = [Md5.hexDigit (b.toNat / 16), Md5.hexDigit (b.toNat % 16)] := by
  have hall : ∀ n : Fin 256, List.replicate (2 - (Nat.toDigits 16 n.val).length) '0' ++
      Nat.toDigits 16 n.val = [Md5.hexDigit (n.val / 16), Md5.hexDigit (n.val % 16)] := by
    decide +kernel
  exact hall ⟨b.toNat, b.toNat_lt⟩

/-- Of a finalized object `hexdigest` is the digest in hexadecimal. -/
theorem hexdigest_of_finalized {md : Md5Utils} (h : md.finalized = true) :
    hexdigest md = Md5.hex md.digest := by
  have hprint : sprintf02x = fun b =>
      [Md5.hexDigit (b.toNat / 16), Md5.hexDigit (b.toNat % 16)] := by
    funext b
    exact sprintf02x_eq b
  rw [hexdigest, h, Md5.hex, hprint]
  rfl

/-- Updates with the chunks of a message and `finalize` leave the digest of the message. -/
theorem runs_streamed (memory : Md5Utils) {chunks : List (List UInt8)}
    (hshort : ∀ chunk ∈ chunks, chunk.length < maxLength) :
    ∃ md, Runs (chunks.map .update ++ [.finalize]) memory.init md ∧ md.finalized = true ∧
      md.digest = Md5.digest chunks.flatten := by
  obtain ⟨full, hupdates, hholds⟩ := runs_updates (holds_init memory) hshort
  obtain ⟨fuel, md, hfinalize, hdone, hdigest⟩ := finalize_holds hholds
  have hcall : Call.run fuel full .finalize = some md := hfinalize
  exact ⟨md, hupdates.append (Runs.cons hcall (Runs.nil md)), hdone, hdigest⟩

/-- `MD5` prints the digest of its text, as long as the text leaves one block of room. -/
theorem MD5_returns (memory : Md5Utils) {str : List UInt8} (h : str.length < maxLength) :
    ∃ fuel, MD5 fuel memory str = some (Md5.hex (Md5.digest str)) := by
  obtain ⟨md, ⟨fuel, hrun⟩, hdone, hdigest⟩ :=
    runs_streamed memory (List.forall_mem_singleton.mpr h)
  refine ⟨fuel, ?_⟩
  change (runCalls fuel [.update str, .finalize] memory.init) = some md at hrun
  rw [MD5, hrun, Option.map_some, hexdigest_of_finalized hdone, hdigest, List.flatten_singleton]

/-- Streaming prints the 32 digits of the digest of the whole message, however it is cut into
chunks, and they stay under every further call. -/
theorem hexdigest_streamed (memory : Md5Utils) (chunks : List (List UInt8))
    (hshort : ∀ chunk ∈ chunks, chunk.length < 2 ^ 32 - 64) :
    ∃ md, Runs (chunks.map .update ++ [.finalize]) memory.init md ∧
      hexdigest md = Md5.hex (Md5.digest chunks.flatten) ∧ (hexdigest md).length = 32 ∧
      (∀ calls last, Runs calls md last → hexdigest last = hexdigest md) ∧
      ∀ calls, (∀ call ∈ calls, call.Short) → ∃ last, Runs calls md last := by
  obtain ⟨md, hruns, hdone, hdigest⟩ := runs_streamed memory hshort
  have hprint : hexdigest md = Md5.hex (Md5.digest chunks.flatten) := by
    rw [hexdigest_of_finalized hdone, hdigest]
  refine ⟨md, hruns, hprint, ?_, ?_, ?_⟩
  · rw [hprint, Md5.length_hex, Md5.length_digest]
  · intro calls last h
    obtain ⟨hlast, hkept⟩ := h.of_finalized hdone
    rw [hexdigest_of_finalized hlast, hexdigest_of_finalized hdone, hkept]
  · intro calls h
    exact runs_of_short h md

/-- A message of three bytes in two chunks, on memory that an earlier digest left behind. -/
theorem hexdigest_abc : ∃ md,
    Runs [.update [97], .update [98, 99], .finalize]
      (Md5Utils.init ⟨true, Buffer.zero, 24, 0, ⟨1, 2, 3, 4⟩, List.replicate 16 7⟩) md ∧
    hexdigest md = "900150983cd24fb0d6963f7d28e17f72".toList := by
  obtain ⟨md, hruns, hdigest, -⟩ := hexdigest_streamed
    ⟨true, Buffer.zero, 24, 0, ⟨1, 2, 3, 4⟩, List.replicate 16 7⟩ [[97], [98, 99]] (by decide)
  refine ⟨md, hruns, hdigest.trans ?_⟩
  decide +kernel

end XposedJniTrace.Md5Utils
