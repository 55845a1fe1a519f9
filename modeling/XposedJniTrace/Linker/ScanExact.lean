import XposedJniTrace.Linker.BreakStops

/-!
# The scan of one region

What `search_memory_syscall` of arm64 is to find in a region of pages: each place where
`MOVZ X8, #n` without a shift stands in front of `SVC #0`, up to the first call that is answered
with `BREAK_FIND_SYSCALL`. The scan is exact unless the last place of the region is one and is due;
its limit is eight bytes in front of the end, and the loop does not come to the limit.
-/

namespace XposedJniTrace.FindSyscalls

open Delivery (deliver UntilStop)

/-- The encoding of `MOVZ X8, #n` with no shift. -/
def movzX8 (n : ℕ) : ℕ := 0xD2800008 + 32 * n

/-- The encoding of `SVC #0`. -/
def svc0 : ℕ := 0xD4000001

/-- An executable region: whole pages, one at least. -/
structure CodePages where
  first : ℕ
  behind : ℕ
  page_first : 4096 ∣ first
  page_behind : 4096 ∣ behind
  nonempty : first < behind
  behind_lt : behind < 2 ^ 64

/-- A place of a region where a system call is made, and its number. -/
structure IsSite (mem : Memory) (pages : CodePages) (found : Match) : Prop where
  aligned : 4 ∣ found.addr
  first_le : pages.first ≤ found.addr
  le_behind : found.addr + 8 ≤ pages.behind
  num_lt : found.num < 2 ^ 16
  mov : insn mem found.addr = movzX8 found.num
  svc : insn mem (found.addr + 4) = svc0

/-- All the places of a region, in increasing order. -/
structure AreSites (mem : Memory) (pages : CodePages) (sites : List Match) : Prop where
  increasing : sites.Pairwise fun first second => first.addr < second.addr
  mem_iff : ∀ found, found ∈ sites ↔ IsSite mem pages found

namespace AArch64

/-- The words that the comparisons of one round read. -/
def wordsRead (mem : Memory) (start : ℕ) : List ℕ :=
  if insn mem (start + 4) = AARCH64_SVC_0 then [start + 4, start] else [start + 4]

/-- The loop of `search_memory_syscall`, and behind some earlier words those that it reads. -/
def searchReads (mem : Memory) (callback : List Match → Match → Bool) (limit start : ℕ)
    (calls : List Match) (words : List ℕ) : List Match × List ℕ :=
  match syscallAt mem start with
  | some num =>
    if callback calls ⟨start, num⟩ then
      if start + 4 < limit then
        searchReads mem callback limit (start + 4) (calls ++ [⟨start, num⟩])
          (words ++ wordsRead mem start)
      else (calls ++ [⟨start, num⟩], words ++ wordsRead mem start)
    else (calls ++ [⟨start, num⟩], words ++ wordsRead mem start)
  | none =>
    if start + 4 < limit then
      searchReads mem callback limit (start + 4) calls (words ++ wordsRead mem start)
    else (calls, words ++ wordsRead mem start)
termination_by limit - start

end AArch64

/-- The scan calls the callback for the places of the region until a break, and reads no word
outside the region. -/
structure ScanExact (mem : Memory) (path : List UInt8) (callback : Callback) (pages : CodePages) :
    Prop where
  calls : ∃ sites, AreSites mem pages sites ∧
    UntilStop (Arch.answer path callback .aarch64) [] sites
      (Arch.aarch64.search_memory_syscall mem path callback pages.first pages.behind [])
  inside : ∀ word ∈ (AArch64.searchReads mem (Arch.answer path callback .aarch64)
    (pages.behind - 4 * 2) pages.first [] []).2, pages.first ≤ word ∧ word + 4 ≤ pages.behind

/-- The callback answers a place in front of the last one with a break. -/
def BreaksBeforeLast (mem : Memory) (path : List UInt8) (callback : Callback) (pages : CodePages) :
    Prop :=
  ∃ sites first found rest, AreSites mem pages sites ∧ sites = first ++ found :: rest ∧
    found.addr < pages.behind - 8 ∧ Arch.answer path callback .aarch64 first found = false

section Words

/-- An instruction word has 32 bits. -/
theorem insn_lt (mem : Memory) (a : ℕ) : insn mem a < 2 ^ 32 := by
  have hlt := LittleEndian.decode_lt [mem a, mem (a + 1), mem (a + 2), mem (a + 3)]
  exact hlt.trans_eq (by norm_num)

/-- The mask keeps the bits of a word but for those of the number. -/
theorem and_mask {w : ℕ} (hw : w < 2 ^ 32) :
    w &&& 0xFFE0001F = 2 ^ 21 * (w / 2 ^ 21) + w % 32 := by
  have hhigh : (w &&& 0xFFE0001F) / 2 ^ 21 = w / 2 ^ 21 := by
    rw [Nat.and_div_two_pow]
    change w / 2 ^ 21 &&& (2 ^ 11 - 1) = _
    rw [Nat.and_two_pow_sub_one_eq_mod, Nat.mod_eq_of_lt (by omega)]
  have hlow : (w &&& 0xFFE0001F) % 2 ^ 21 = w % 32 := by
    rw [Nat.and_mod_two_pow]
    change w % 2 ^ 21 &&& (2 ^ 5 - 1) = _
    rw [Nat.and_two_pow_sub_one_eq_mod]
    omega
  rw [← Nat.div_add_mod (w &&& 0xFFE0001F) (2 ^ 21), hhigh, hlow]

/-- The comparison under the mask finds the encodings of the instruction, each with its number. -/
theorem isMov_iff {w : ℕ} (hw : w < 2 ^ 32) (n : ℕ) :
    AArch64.AARCH64_IS_MOV w ∧ w >>> 5 &&& 0xFFFF = n ↔ n < 2 ^ 16 ∧ w = movzX8 n := by
  have hnum : w >>> 5 &&& 0xFFFF = w / 32 % 2 ^ 16 := by
    rw [Nat.shiftRight_eq_div_pow]
    exact Nat.and_two_pow_sub_one_eq_mod _ 16
  rw [AArch64.AARCH64_IS_MOV, and_mask hw, hnum, movzX8]
  omega

/-- The pattern of the scan is exactly `movz x8, #num` with `svc #0` behind it. -/
theorem syscallAt_eq_some_iff (mem : Memory) (start num : ℕ) :
    AArch64.syscallAt mem start = some num ↔
      num < 2 ^ 16 ∧ insn mem start = movzX8 num ∧ insn mem (start + 4) = svc0 := by
  have hmov := isMov_iff (insn_lt mem start) num
  have hsvc : AArch64.AARCH64_SVC_0 = svc0 := rfl
  rw [AArch64.syscallAt, hsvc, ← and_assoc, ← hmov]
  split_ifs with h
  · rw [Option.some.injEq]
    exact ⟨fun hnum => ⟨⟨h.2, hnum⟩, h.1⟩, fun hsite => hsite.1.2⟩
  · exact iff_of_false not_false fun hsite => h ⟨hsite.2, hsite.1.1⟩

end Words

section Sites

variable (mem : Memory) {pages : CodePages}

/-- The places with room for a site, four bytes apart, are the one at the end and those in front
that the scan looks at. -/
theorem CodePages.places (pages : CodePages) :
    ∃ n, pages.behind = pages.first + 4 * (n + 1) + 8 ∧ 1021 ≤ n := by
  have hfirst := pages.page_first
  have hbehind := pages.page_behind
  have hlt := pages.nonempty
  exact ⟨(pages.behind - pages.first) / 4 - 3, by omega, by omega⟩

/-- The matches at places apart come in increasing order. -/
theorem matchesFrom_increasing (syscallAt : ℕ → Option ℕ) {stride : ℕ} (hstride : 0 < stride)
    (start n : ℕ) :
    (matchesFrom syscallAt stride start n).Pairwise fun first second =>
      first.addr < second.addr := by
  induction n generalizing start with
  | zero => exact List.Pairwise.nil
  | succ n ih =>
    cases hcall : syscallAt start with
    | none =>
      rw [matchesFrom, hcall]
      exact ih (start + stride)
    | some num =>
      rw [matchesFrom_of_some hcall]
      refine List.pairwise_cons.mpr ⟨?_, ih (start + stride)⟩
      intro found hfound
      obtain ⟨i, -, haddr⟩ := addr_of_mem hfound
      change start < found.addr
      omega

/-- A match at one of the places is listed. -/
theorem mem_matchesFrom_iff {syscallAt : ℕ → Option ℕ} {stride start n : ℕ} {found : Match} :
    found ∈ matchesFrom syscallAt stride start n ↔
      syscallAt found.addr = some found.num ∧ ∃ i, i < n ∧ found.addr = start + stride * i := by
  induction n generalizing start with
  | zero => simp [matchesFrom]
  | succ n ih =>
    rw [matchesFrom, List.mem_append, ih]
    have hhere : found ∈ ((syscallAt start).map fun num => Match.mk start num).toList ↔
        syscallAt found.addr = some found.num ∧ found.addr = start := by
      obtain ⟨addr, num⟩ := found
      rw [Option.mem_toList, Option.map_eq_some_iff]
      simp only [Match.mk.injEq]
      constructor
      · rintro ⟨num, hcall, rfl, rfl⟩
        exact ⟨hcall, rfl⟩
      · rintro ⟨hcall, rfl⟩
        exact ⟨num, hcall, rfl, rfl⟩
    rw [hhere, ← and_or_left]
    refine and_congr_right fun _ => ?_
    have hnext (i : ℕ) : start + stride + stride * i = start + stride * (i + 1) := by ring
    constructor
    · rintro (haddr | ⟨i, hi, haddr⟩)
      · exact ⟨0, Nat.succ_pos n, haddr⟩
      · exact ⟨i + 1, Nat.succ_lt_succ hi, haddr.trans (hnext i)⟩
    · rintro ⟨i, hi, haddr⟩
      cases i with
      | zero => exact .inl haddr
      | succ i => exact .inr ⟨i, Nat.lt_of_succ_lt_succ hi, haddr.trans (hnext i).symm⟩

/-- The matches at the places of a region are its sites. -/
theorem areSites_matchesFrom {n : ℕ} (hplaces : pages.behind = pages.first + 4 * (n + 1) + 8) :
    AreSites mem pages (matchesFrom (AArch64.syscallAt mem) 4 pages.first (n + 1 + 1)) := by
  have hpage := pages.page_first
  refine ⟨matchesFrom_increasing _ (by decide) _ _, ?_⟩
  intro found
  rw [mem_matchesFrom_iff, syscallAt_eq_some_iff]
  constructor
  · rintro ⟨⟨hnum, hmov, hsvc⟩, i, hi, haddr⟩
    exact ⟨by omega, by omega, by omega, hnum, hmov, hsvc⟩
  · intro hsite
    have haligned := hsite.aligned
    have hfirst := hsite.first_le
    have hbehind := hsite.le_behind
    exact ⟨⟨hsite.num_lt, hsite.mov, hsite.svc⟩, (found.addr - pages.first) / 4, by omega, by omega⟩

/-- Matches in increasing order are one list. -/
theorem eq_of_increasing {found found' : List Match}
    (h : found.Pairwise fun first second => first.addr < second.addr)
    (h' : found'.Pairwise fun first second => first.addr < second.addr)
    (hsame : ∀ m, m ∈ found ↔ m ∈ found') : found = found' := by
  have hnodup {found : List Match}
      (h : found.Pairwise fun first second => first.addr < second.addr) :
      found.Nodup := h.imp fun hlt heq => absurd hlt (by rw [heq]; exact lt_irrefl _)
  have hperm : found.Perm found' :=
    (List.perm_ext_iff_of_nodup (hnodup h) (hnodup h')).mpr hsame
  refine hperm.eq_of_pairwise ?_ h h'
  intro first second _ _ hlt hgt
  exact absurd hlt (Nat.lt_asymm hgt)

/-- The sites of a region are one list. -/
theorem AreSites.unique {mem : Memory} {sites sites' : List Match} (h : AreSites mem pages sites)
    (h' : AreSites mem pages sites') : sites = sites' :=
  eq_of_increasing h.increasing h'.increasing fun found =>
    (h.mem_iff found).trans (h'.mem_iff found).symm

end Sites

section Reads

variable (mem : Memory) (callback : List Match → Match → Bool)

/-- The words are read beside the loop of the scan, which is the same. -/
theorem AArch64.searchReads_calls (limit start : ℕ) (calls : List Match) (words : List ℕ) :
    (AArch64.searchReads mem callback limit start calls words).1 =
      AArch64.search mem callback limit start calls := by
  fun_induction AArch64.searchReads mem callback limit start calls words with
  | case1 start calls words num hcall hgo hmore ih =>
    rw [ih, AArch64.search.eq_1 _ _ _ start, hcall]
    simp only [if_pos hgo, if_pos hmore]
  | case2 start calls words num hcall hgo hmore =>
    rw [AArch64.search, hcall]
    simp only [if_pos hgo, if_neg hmore]
  | case3 start calls words num hcall hgo =>
    rw [AArch64.search, hcall]
    simp only [if_neg hgo]
  | case4 start calls words hcall hmore ih =>
    rw [ih, AArch64.search.eq_1 _ _ _ start, hcall]
    simp only [if_pos hmore]
  | case5 start calls words hcall hmore =>
    rw [AArch64.search, hcall]
    simp only [if_neg hmore]

/-- A round reads the two words at its place. -/
theorem AArch64.mem_wordsRead {start word : ℕ} (h : word ∈ AArch64.wordsRead mem start) :
    word = start ∨ word = start + 4 := by
  rw [AArch64.wordsRead] at h
  split_ifs at h
  · simpa [or_comm] using h
  · simpa using Or.inr (List.mem_singleton.mp h)

/-- The words that the loop reads are from where it starts to behind its limit. -/
theorem AArch64.searchReads_inside {limit start : ℕ} {calls : List Match} {words : List ℕ}
    {low : ℕ} (hlow : low ≤ start) (hstart : start < limit)
    (hwords : ∀ word ∈ words, low ≤ word ∧ word < limit + 4) :
    ∀ word ∈ (AArch64.searchReads mem callback limit start calls words).2,
      low ≤ word ∧ word < limit + 4 := by
  have hread {start : ℕ} {words : List ℕ} (hlow : low ≤ start) (hstart : start < limit)
      (hwords : ∀ word ∈ words, low ≤ word ∧ word < limit + 4) :
      ∀ word ∈ words ++ AArch64.wordsRead mem start, low ≤ word ∧ word < limit + 4 := by
    intro word hword
    rcases List.mem_append.mp hword with h | h
    · exact hwords word h
    · rcases AArch64.mem_wordsRead mem h with rfl | rfl
      · omega
      · omega
  fun_induction AArch64.searchReads mem callback limit start calls words with
  | case1 start calls words num hcall hgo hmore ih =>
    exact ih (by omega) hmore (hread hlow hstart hwords)
  | case2 start calls words num hcall hgo hmore => exact hread hlow hstart hwords
  | case3 start calls words num hcall hgo => exact hread hlow hstart hwords
  | case4 start calls words hcall hmore ih => exact ih (by omega) hmore (hread hlow hstart hwords)
  | case5 start calls words hcall hmore => exact hread hlow hstart hwords

end Reads

section Exact

variable {mem : Memory} {path : List UInt8} {callback : Callback} {pages : CodePages}

/-- The scan delivers the sites in front of the last place. -/
theorem search_pages {n : ℕ} (hplaces : pages.behind = pages.first + 4 * (n + 1) + 8) :
    Arch.aarch64.search_memory_syscall mem path callback pages.first pages.behind [] =
      (deliver (Arch.answer path callback .aarch64) []
        (matchesFrom (AArch64.syscallAt mem) 4 pages.first (n + 1))).1 := by
  change AArch64.search mem _ (pages.behind - 4 * 2) pages.first [] = _
  rw [hplaces, Nat.add_sub_cancel]
  exact AArch64.search_eq mem _ n pages.first []

/-- No word outside the region is read. -/
theorem searchReads_pages (mem : Memory) (callback : List Match → Match → Bool)
    (pages : CodePages) :
    ∀ word ∈ (AArch64.searchReads mem callback (pages.behind - 4 * 2) pages.first [] []).2,
      pages.first ≤ word ∧ word + 4 ≤ pages.behind := by
  obtain ⟨n, hplaces, -⟩ := pages.places
  have hstart : pages.first < pages.behind - 4 * 2 := by omega
  have hinside : ∀ word ∈
      (AArch64.searchReads mem callback (pages.behind - 4 * 2) pages.first [] []).2,
      pages.first ≤ word ∧ word < pages.behind - 4 * 2 + 4 :=
    AArch64.searchReads_inside mem callback (le_refl pages.first) hstart nofun
  intro word hword
  have hword := hinside word hword
  omega

/-- An element that is not in the second part of a list comes in the first part. -/
theorem before_last_of_append {α : Type*} {front last first rest : List α} {a : α}
    (hsplit : front ++ last = first ++ a :: rest) (hlast : a ∉ last) : first ++ [a] <+: front := by
  rcases List.append_eq_append_iff.mp hsplit with ⟨more, hfirst, hmore⟩ | ⟨more, hfront, hmore⟩
  · refine absurd ?_ hlast
    rw [hmore]
    exact List.mem_append_right _ List.mem_cons_self
  · cases more with
    | nil =>
      refine absurd ?_ hlast
      rw [← List.nil_append last, ← hmore]
      exact List.mem_cons_self
    | cons b more =>
      obtain ⟨rfl, -⟩ := List.cons.inj hmore
      exact ⟨more, by rw [hfront, List.append_assoc, List.singleton_append]⟩

/-- With its last place apart, the sites of a region are those that the scan delivers and what is
at the last place. -/
theorem sites_eq (mem : Memory) {n : ℕ} (start : ℕ) :
    matchesFrom (AArch64.syscallAt mem) 4 start (n + 1 + 1) =
      matchesFrom (AArch64.syscallAt mem) 4 start (n + 1) ++
        ((AArch64.syscallAt mem (start + 4 * (n + 1))).map fun num =>
          Match.mk (start + 4 * (n + 1)) num).toList := by
  rw [matchesFrom_add _ (n + 1) 1]
  change _ ++ (_ ++ []) = _
  rw [List.append_nil]

/-- The scan is exact when nothing is at the last place, or is not due. -/
theorem scanExact_iff_deliver {n : ℕ} (hplaces : pages.behind = pages.first + 4 * (n + 1) + 8) :
    ScanExact mem path callback pages ↔
      AArch64.syscallAt mem (pages.behind - 8) = none ∨
        (deliver (Arch.answer path callback .aarch64) []
          (matchesFrom (AArch64.syscallAt mem) 4 pages.first (n + 1))).2 = false := by
  have hlast : pages.first + 4 * (n + 1) = pages.behind - 8 := by omega
  have hsites := areSites_matchesFrom mem hplaces
  have hcalls : ScanExact mem path callback pages ↔
      UntilStop (Arch.answer path callback .aarch64) []
        (matchesFrom (AArch64.syscallAt mem) 4 pages.first (n + 1 + 1))
        (Arch.aarch64.search_memory_syscall mem path callback pages.first pages.behind []) := by
    constructor
    · intro h
      obtain ⟨sites, hsites', huntil⟩ := h.calls
      rwa [hsites.unique hsites']
    · intro h
      exact ⟨⟨_, hsites, h⟩, searchReads_pages mem _ pages⟩
  rw [hcalls, Delivery.untilStop_iff, search_pages hplaces, List.nil_append, sites_eq, hlast,
    Delivery.deliver_append]
  cases hgo : (deliver (Arch.answer path callback .aarch64) []
      (matchesFrom (AArch64.syscallAt mem) 4 pages.first (n + 1))).2 with
  | true =>
    rw [if_pos rfl, eq_comm, Delivery.deliver_eq_self_iff, Option.toList_eq_nil_iff,
      Option.map_eq_none_iff]
    simp
  | false => simp

/-- A number at the last place is that of a site. -/
theorem syscallAt_last_iff (mem : Memory) (pages : CodePages) (num : ℕ) :
    AArch64.syscallAt mem (pages.behind - 8) = some num ↔
      IsSite mem pages ⟨pages.behind - 8, num⟩ := by
  obtain ⟨n, hplaces, -⟩ := pages.places
  have hpage := pages.page_behind
  rw [syscallAt_eq_some_iff]
  constructor
  · intro h
    obtain ⟨hnum, hmov, hsvc⟩ := h
    have haligned : 4 ∣ pages.behind - 8 := by omega
    have hfirst : pages.first ≤ pages.behind - 8 := by omega
    have hbehind : pages.behind - 8 + 8 ≤ pages.behind := by omega
    exact ⟨haligned, hfirst, hbehind, hnum, hmov, hsvc⟩
  · intro hsite
    exact ⟨hsite.num_lt, hsite.mov, hsite.svc⟩

/-- A break in front of the last place is answered to one of the sites that the scan comes to. -/
theorem breaksBeforeLast_iff {n : ℕ} (hplaces : pages.behind = pages.first + 4 * (n + 1) + 8) :
    BreaksBeforeLast mem path callback pages ↔
      (deliver (Arch.answer path callback .aarch64) []
        (matchesFrom (AArch64.syscallAt mem) 4 pages.first (n + 1))).2 = false := by
  have hsites := areSites_matchesFrom mem hplaces
  have hall := sites_eq mem (n := n) pages.first
  rw [Delivery.deliver_stops_iff]
  constructor
  · intro h
    obtain ⟨sites, first, found, rest, hsites', hsplit, hlt, hstop⟩ := h
    rw [hsites'.unique hsites, hall] at hsplit
    have hnotLast : found ∉ ((AArch64.syscallAt mem (pages.first + 4 * (n + 1))).map fun num =>
        Match.mk (pages.first + 4 * (n + 1)) num).toList := by
      intro hlast
      obtain ⟨num, -, rfl⟩ := Option.map_eq_some_iff.mp (Option.mem_toList.mp hlast)
      change pages.first + 4 * (n + 1) < pages.behind - 8 at hlt
      omega
    obtain ⟨rest', hrest⟩ := before_last_of_append hsplit hnotLast
    refine ⟨first, found, rest', ?_, hstop⟩
    rw [← hrest, List.append_assoc, List.singleton_append]
  · intro h
    obtain ⟨first, found, rest, hsplit, hstop⟩ := h
    have hfound : found ∈ matchesFrom (AArch64.syscallAt mem) 4 pages.first (n + 1) := by
      rw [hsplit]
      exact List.mem_append_right _ List.mem_cons_self
    obtain ⟨i, hi, haddr⟩ := addr_of_mem hfound
    rw [hsplit, List.append_assoc, List.cons_append] at hall
    exact ⟨_, first, found, _, hsites, hall, by omega, hstop⟩

/-- The scan is exact exactly when no system call is made at the last place of the region, or the
callback has answered a place in front of it with a break. -/
theorem scanExact_iff (mem : Memory) (path : List UInt8) (callback : Callback) (pages : CodePages) :
    ScanExact mem path callback pages ↔
      (∀ num, ¬ IsSite mem pages ⟨pages.behind - 8, num⟩) ∨
        BreaksBeforeLast mem path callback pages := by
  obtain ⟨n, hplaces, -⟩ := pages.places
  rw [scanExact_iff_deliver hplaces, breaksBeforeLast_iff hplaces,
    Option.eq_none_iff_forall_ne_some]
  exact or_congr_left (forall_congr' fun num => not_congr (syscallAt_last_iff mem pages num))

end Exact

/-- One page of code. -/
def onePage : CodePages where
  first := 0x1000
  behind := 0x2000
  page_first := by decide
  page_behind := by decide
  nonempty := by decide
  behind_lt := by decide

/-- Memory with the system call `openat` in the last two words of a page. -/
def openatLast : Memory := fun a =>
  if 0x1FF8 ≤ a then [0x08, 0x07, 0x80, 0xD2, 0x01, 0x00, 0x00, 0xD4].getD (a - 0x1FF8) 0 else 0

/-- The system call `openat` at the end of a page of code is not found. -/
theorem openat_missed :
    ¬ ScanExact openatLast (Mylibc.ascii "/linker64") (fun _ _ => true) onePage := by
  have hplaces : onePage.behind = onePage.first + 4 * (1021 + 1) + 8 := rfl
  have hnone : matchesFrom (AArch64.syscallAt openatLast) 4 onePage.first (1021 + 1) = [] := by
    refine List.eq_nil_iff_forall_not_mem.mpr ?_
    intro found hfound
    obtain ⟨hcall, i, hi, haddr⟩ := mem_matchesFrom_iff.mp hfound
    obtain ⟨-, -, hsvc⟩ := (syscallAt_eq_some_iff _ _ _).mp hcall
    change found.addr = 0x1000 + 4 * i at haddr
    have hzero (k : ℕ) (hk : k < 0x1FF8) : openatLast k = 0 := if_neg (by omega)
    by_cases hword : found.addr + 8 ≤ 0x1FF8
    · rw [insn, hzero _ (by omega), hzero _ (by omega), hzero _ (by omega),
        hzero _ (by omega)] at hsvc
      exact absurd hsvc (by decide)
    · -- the word behind the place in front of the last one is the load of the number
      rw [show found.addr + 4 = 0x1FF8 by omega] at hsvc
      exact absurd hsvc (by decide)
  have hlast : AArch64.syscallAt openatLast (onePage.behind - 8) = some 56 := by decide
  rw [scanExact_iff_deliver (n := 1021) hplaces, hnone, hlast]
  simp [deliver]

end XposedJniTrace.FindSyscalls
