import XposedJniTrace.Linker.ScanExact

/-!
# The scan of one region on arm

The scan of arm is to keep the contract that the callbacks know from arm64: a call for each place
where `MOV R12, R7`, `MOVW R7, #n` and `SVC #0` stand in a row, with the number and the place, up to
the first call that is answered with `BREAK_FIND_SYSCALL`. It passes a null place, steps byte by
byte, takes `MOVT` and other words for `MOVW`, does not look at the answer and leaves out the last
places of the region; what it does is the contract only where there is nothing to find, or the one
place to report is at address zero.
-/

namespace XposedJniTrace.FindSyscalls.Arm

open Delivery (deliver UntilStop)

/-- The encoding of `MOV R12, R7`. -/
def movR12R7 : ℕ := 0xE1A0C007

/-- The encoding of `MOVW R7, #n`: the upper four bits of the number are apart from the others. -/
def movwR7 (n : ℕ) : ℕ := 0xE3007000 + 2 ^ 16 * (n / 2 ^ 12) + n % 2 ^ 12

/-- The encoding of `SVC #0`. -/
def svc0 : ℕ := 0xEF000000

/-- The three words of a system call at an address, and its number. -/
structure IsSequence (mem : Memory) (found : Match) : Prop where
  num_lt : found.num < 2 ^ 16
  mov : insn mem found.addr = movR12R7
  movw : insn mem (found.addr + 4) = movwR7 found.num
  svc : insn mem (found.addr + 8) = svc0

/-- An executable region of a process whose addresses are words. -/
structure CodePages extends FindSyscalls.CodePages where
  behind_word : behind < 2 ^ 32

/-- A place of a region where a system call is made: the address of an instruction. -/
structure IsSite (mem : Memory) (pages : CodePages) (found : Match) : Prop where
  here : IsSequence mem found
  aligned : 4 ∣ found.addr
  first_le : pages.first ≤ found.addr
  le_behind : found.addr + 12 ≤ pages.behind

/-- All the places of a region, in increasing order. -/
structure AreSites (mem : Memory) (pages : CodePages) (sites : List Match) : Prop where
  increasing : sites.Pairwise fun first second => first.addr < second.addr
  mem_iff : ∀ found, found ∈ sites ↔ IsSite mem pages found

/-- The scan makes the calls that are made on arm64 for such places: each with its number and its
address, until a break. -/
def KeepsContract (mem : Memory) (path : List UInt8) (callback : Callback)
    (pages : CodePages) : Prop :=
  ∃ sites calls, AreSites mem pages sites ∧
    UntilStop (Arch.answer path callback .aarch64) [] sites calls ∧
    (Arch.arm.search_memory_syscall mem path callback pages.first pages.behind []).map
      (Arch.arm.call path) = calls.map (Arch.aarch64.call path)

/-- The scan looks at the address. -/
def Examined (pages : CodePages) (a : ℕ) : Prop := pages.first ≤ a ∧ a + 16 < pages.behind

/-- Nothing at an address that the scan looks at, be it that of an instruction or not, passes its
comparisons, and the region has no place to report. -/
def NothingThere (mem : Memory) (pages : CodePages) : Prop :=
  (∀ a, Examined pages a → syscallAt mem a = none) ∧ ∀ found, ¬ IsSite mem pages found

/-- The region begins at address zero with a system call, the scan takes nothing else for one, and
no other is due. -/
def OnlyAtNull (mem : Memory) (path : List UInt8) (callback : Callback)
    (pages : CodePages) : Prop :=
  pages.first = 0 ∧ ∃ num, IsSequence mem ⟨0, num⟩ ∧
    (∀ a, Examined pages a → (syscallAt mem a).isSome → a = 0) ∧
    (callback [] ⟨path, num, 0⟩ = false ∨ ∀ found, IsSite mem pages found → found.addr = 0)

section Words

/-- The number that the code puts together has four bits from one field and twelve from another. -/
theorem num_eq (w : ℕ) :
    (w &&& 0xF0000) >>> 4 ||| w &&& 0x00FFF = 2 ^ 12 * (w / 2 ^ 16 % 2 ^ 4) + w % 2 ^ 12 := by
  have hlow : w &&& 0x00FFF = w % 2 ^ 12 := Nat.and_two_pow_sub_one_eq_mod w 12
  have hfield : (w &&& 0xF0000) / 2 ^ 16 = w / 2 ^ 16 % 2 ^ 4 := by
    rw [Nat.and_div_two_pow]
    change w / 2 ^ 16 &&& (2 ^ 4 - 1) = _
    rw [Nat.and_two_pow_sub_one_eq_mod]
  have hzero : (w &&& 0xF0000) % 2 ^ 16 = 0 := by
    rw [Nat.and_mod_two_pow]
    exact Nat.and_zero _
  have hhigh : (w &&& 0xF0000) >>> 4 = 2 ^ 12 * (w / 2 ^ 16 % 2 ^ 4) := by
    rw [Nat.shiftRight_eq_div_pow]
    omega
  rw [hlow, hhigh, ← Nat.two_pow_add_eq_or_of_lt (Nat.mod_lt _ (by decide))]

/-- The number that the two fields of a `movw` make is one of 16 bits. -/
theorem num_lt (w : ℕ) : (w &&& 0xF0000) >>> 4 ||| w &&& 0x00FFF < 2 ^ 16 := by
  rw [num_eq]
  omega

/-- The encodings of the instruction pass the comparison under the mask, each with its number. -/
theorem isMov_movwR7 {n : ℕ} (hn : n < 2 ^ 16) :
    ARM_IS_MOV_R7_IMM (movwR7 n) ∧ (movwR7 n &&& 0xF0000) >>> 4 ||| movwR7 n &&& 0x00FFF = n := by
  have hbyte : (movwR7 n &&& 0xFF00F000) / 2 ^ 24 = 0xE3 := by
    rw [Nat.and_div_two_pow]
    change movwR7 n / 2 ^ 24 &&& (2 ^ 8 - 1) = _
    have hquotient : movwR7 n / 2 ^ 24 = 0xE3 := by
      rw [movwR7]
      omega
    rw [hquotient]
    rfl
  have hregister : (movwR7 n &&& 0xFF00F000) / 2 ^ 12 % 2 ^ 12 = 7 := by
    rw [Nat.and_div_two_pow, Nat.and_mod_two_pow]
    change movwR7 n / 2 ^ 12 % 2 ^ 12 &&& (2 ^ 4 - 1) = _
    rw [Nat.and_two_pow_sub_one_eq_mod, movwR7]
    omega
  have hlow : (movwR7 n &&& 0xFF00F000) % 2 ^ 12 = 0 := by
    rw [Nat.and_mod_two_pow]
    exact Nat.and_zero _
  constructor
  · rw [ARM_IS_MOV_R7_IMM]
    omega
  · rw [num_eq, movwR7]
    omega

/-- The three words of a system call are those that pass with the second word a `MOVW`. -/
theorem isSequence_iff {mem : Memory} {found : Match} :
    IsSequence mem found ↔
      syscallAt mem found.addr = some found.num ∧ insn mem (found.addr + 4) = movwR7 found.num := by
  rw [syscallAt]
  constructor
  · intro h
    obtain ⟨hmov, hnum⟩ := isMov_movwR7 h.num_lt
    rw [← h.movw] at hmov hnum
    rw [if_pos ⟨h.mov, hmov, h.svc⟩, hnum]
    exact ⟨rfl, h.movw⟩
  · intro h
    obtain ⟨hpass, hmovw⟩ := h
    split_ifs at hpass with hwords
    obtain ⟨hfirst, -, hthird⟩ := hwords
    have hlt := num_lt (insn mem (found.addr + 4))
    rw [Option.some.inj hpass] at hlt
    exact ⟨hlt, hfirst, hmovw, hthird⟩

end Words

section Scan

variable {mem : Memory} {path : List UInt8} {callback : Callback} {pages : CodePages}

/-- The matches at the addresses that the scan looks at. -/
def examined (mem : Memory) (pages : CodePages) : List Match :=
  matchesFrom (syscallAt mem) 1 pages.first (pages.behind - 16 - pages.first)

/-- The places to report, of the addresses of instructions with room for three words. -/
def sites (mem : Memory) (pages : CodePages) : List Match :=
  (matchesFrom (syscallAt mem) 4 pages.first ((pages.behind - 12 - pages.first) / 4 + 1)).filter
    fun found => insn mem (found.addr + 4) = movwR7 found.num

/-- The addresses examined with a match are the matches that are found. -/
theorem mem_examined {found : Match} :
    found ∈ examined mem pages ↔
      syscallAt mem found.addr = some found.num ∧ Examined pages found.addr := by
  rw [examined, mem_matchesFrom_iff]
  refine and_congr_right fun _ => ?_
  constructor
  · intro h
    obtain ⟨i, hi, haddr⟩ := h
    exact ⟨by omega, by omega⟩
  · intro h
    obtain ⟨hfirst, hbehind⟩ := h
    exact ⟨found.addr - pages.first, by omega, by omega⟩

/-- The sites of the pages, listed in order, are the sites that the contract speaks of. -/
theorem areSites_sites (mem : Memory) (pages : CodePages) :
    AreSites mem pages (sites mem pages) := by
  have hfirst := pages.page_first
  have hbehind := pages.page_behind
  have hlt := pages.nonempty
  refine ⟨(matchesFrom_increasing _ (by decide) _ _).filter _, ?_⟩
  intro found
  rw [sites, List.mem_filter, mem_matchesFrom_iff, decide_eq_true_iff]
  constructor
  · intro h
    obtain ⟨⟨hpass, i, hi, haddr⟩, hmovw⟩ := h
    exact ⟨isSequence_iff.mpr ⟨hpass, hmovw⟩, by omega, by omega, by omega⟩
  · intro h
    obtain ⟨hpass, hmovw⟩ := isSequence_iff.mp h.here
    have haligned := h.aligned
    have hle := h.first_le
    have hroom := h.le_behind
    exact ⟨⟨hpass, (found.addr - pages.first) / 4, by omega, by omega⟩, hmovw⟩

/-- The scan calls for all that it comes to. -/
theorem search_pages (callback : Callback) :
    Arch.arm.search_memory_syscall mem path callback pages.first pages.behind [] =
      examined mem pages := by
  have hfirst := pages.page_first
  have hbehind := pages.page_behind
  have hlt := pages.nonempty
  obtain ⟨n, hn⟩ : ∃ n, pages.behind - 16 - pages.first = n + 1 :=
    ⟨pages.behind - 16 - pages.first - 1, by omega⟩
  have hlimit : pages.behind - 4 * 4 = pages.first + 1 * (n + 1) := by omega
  change search mem (pages.behind - 4 * 4) pages.first [] = _
  rw [hlimit, search_eq, examined, hn, List.nil_append]

end Scan

section Exact

variable {mem : Memory} {path : List UInt8} {callback : Callback} {pages : CodePages}

/-- The places that are due: those up to the first break. -/
def due (mem : Memory) (path : List UInt8) (callback : Callback) (pages : CodePages) : List Match :=
  (deliver (Arch.answer path callback .aarch64) [] (sites mem pages)).1

/-- On arm the callback is told what it is due when the numbers are the same. -/
theorem keepsContract_iff_due :
    KeepsContract mem path callback pages ↔
      (examined mem pages).map (Arch.arm.call path) =
        (due mem path callback pages).map (Arch.aarch64.call path) := by
  have hsites := areSites_sites mem pages
  rw [KeepsContract, search_pages]
  constructor
  · intro h
    obtain ⟨sites', calls, hsites', huntil, hcalls⟩ := h
    have hsame : sites' = sites mem pages :=
      eq_of_increasing hsites'.increasing hsites.increasing fun found =>
        (hsites'.mem_iff found).trans (hsites.mem_iff found).symm
    have hdue : calls = due mem path callback pages := by
      rw [due, ← hsame, ← Delivery.untilStop_iff.mp huntil, List.nil_append]
    rw [hcalls, hdue]
  · intro h
    exact ⟨_, _, hsites, Delivery.untilStop_iff.mpr (List.nil_append _), h⟩

/-- Nothing is there when neither a match is examined nor a site is in the pages. -/
theorem nothingThere_iff :
    NothingThere mem pages ↔ examined mem pages = [] ∧ sites mem pages = [] := by
  rw [NothingThere, List.eq_nil_iff_forall_not_mem, List.eq_nil_iff_forall_not_mem]
  refine and_congr ?_ (forall_congr' fun found =>
    not_congr ((areSites_sites mem pages).mem_iff found).symm)
  constructor
  · intro h found hfound
    obtain ⟨hpass, hexamined⟩ := mem_examined.mp hfound
    rw [h found.addr hexamined] at hpass
    cases hpass
  · intro h a hexamined
    cases hpass : syscallAt mem a with
    | none => rfl
    | some num => exact absurd (mem_examined.mpr ⟨hpass, hexamined⟩) (h ⟨a, num⟩)

/-- A site at address zero is looked at. -/
theorem IsSite.mem_examined {found : Match} (h : IsSite mem pages found) (hzero : found.addr = 0) :
    pages.first = 0 ∧ found ∈ examined mem pages := by
  have hfirst := h.first_le
  have hpage := pages.page_behind
  have hlt := pages.nonempty
  have hexamined : Examined pages found.addr := ⟨h.first_le, by omega⟩
  exact ⟨by omega, Arm.mem_examined.mpr ⟨(isSequence_iff.mp h.here).1, hexamined⟩⟩

/-- All that is due where the contract is kept is at the null address. -/
theorem addr_of_mem_due
    (h : (examined mem pages).map (Arch.arm.call path) =
      (due mem path callback pages).map (Arch.aarch64.call path)) {found : Match}
    (hfound : found ∈ due mem path callback pages) : found.addr = 0 := by
  have hcall := List.mem_map_of_mem (f := Arch.aarch64.call path) hfound
  rw [← h] at hcall
  obtain ⟨examined, -, heq⟩ := List.mem_map.mp hcall
  exact (congrArg Call.func heq).symm

/-- Increasing matches that are all at address zero are one at most. -/
theorem eq_nil_of_increasing {found : Match} {rest : List Match}
    (h : (found :: rest).Pairwise fun first second => first.addr < second.addr)
    (hzero : ∀ later ∈ rest, later.addr = 0) : rest = [] := by
  refine List.eq_nil_iff_forall_not_mem.mpr ?_
  intro later hlater
  have hlt := (List.pairwise_cons.mp h).1 later hlater
  rw [hzero later hlater] at hlt
  exact absurd hlt (Nat.not_lt_zero _)

/-- The contract is kept only where nothing is there, or one place at the null address. -/
theorem KeepsContract.cases (h : KeepsContract mem path callback pages) :
    NothingThere mem pages ∨ OnlyAtNull mem path callback pages := by
  have hsites := areSites_sites mem pages
  rw [keepsContract_iff_due] at h
  have hzero : ∀ found ∈ due mem path callback pages, found.addr = 0 := fun found hfound =>
    addr_of_mem_due h hfound
  cases hlist : sites mem pages with
  | nil =>
    rw [due, hlist, Delivery.deliver_nil] at h
    exact .inl (nothingThere_iff.mpr ⟨List.map_eq_nil_iff.mp h, hlist⟩)
  | cons site rest =>
    obtain ⟨more, hmore⟩ : ∃ more, due mem path callback pages = site :: more := by
      have hprefix := Delivery.prefix_deliver_cons (Arch.answer path callback .aarch64) [] site rest
      rw [← hlist] at hprefix
      obtain ⟨more, hmore⟩ := hprefix
      exact ⟨more, hmore.symm⟩
    have hinOrder : due mem path callback pages <+: sites mem pages :=
      Delivery.deliver_prefix_append _ [] _
    have hincreasing := hsites.increasing.sublist hinOrder.sublist
    rw [hmore] at hincreasing hzero
    obtain rfl : more = [] :=
      eq_nil_of_increasing hincreasing fun later hlater =>
        hzero later (List.mem_cons_of_mem _ hlater)
    have hsite : IsSite mem pages site :=
      (hsites.mem_iff site).mp (hlist ▸ List.mem_cons_self)
    have haddr : site.addr = 0 := hzero site List.mem_cons_self
    obtain ⟨hfirst, hmem⟩ := hsite.mem_examined haddr
    -- one call is made, so the scan has come to this place alone
    obtain ⟨only, honly⟩ : ∃ only, examined mem pages = [only] := by
      rw [hmore, List.map_singleton] at h
      obtain ⟨only, honly, -⟩ := List.map_eq_singleton_iff.mp h
      exact ⟨only, honly⟩
    rw [honly, List.mem_singleton] at hmem
    subst hmem
    refine .inr ⟨hfirst, site.num, haddr ▸ hsite.here, ?_, ?_⟩
    · intro a hexamined hpass
      obtain ⟨num, hnum⟩ := Option.isSome_iff_exists.mp hpass
      have hfound : (⟨a, num⟩ : Match) ∈ examined mem pages :=
        Arm.mem_examined.mpr ⟨hnum, hexamined⟩
      rw [honly, List.mem_singleton] at hfound
      exact (congrArg Match.addr hfound).trans haddr
    · cases hgo : Arch.answer path callback .aarch64 [] site with
      | false =>
        left
        rw [← haddr]
        exact hgo
      | true =>
        right
        rw [due, hlist, Delivery.deliver, if_pos hgo] at hmore
        have hrest : rest = [] := Delivery.deliver_eq_self_iff.mp hmore
        intro found hfound
        rw [← hsites.mem_iff, hlist, hrest, List.mem_singleton] at hfound
        rw [hfound, haddr]

/-- A place at the null address where nothing else is looked at. -/
theorem examined_eq_singleton {num : ℕ} (hsite : IsSite mem pages ⟨0, num⟩)
    (honly : ∀ a, Examined pages a → (syscallAt mem a).isSome → a = 0) :
    examined mem pages = [⟨0, num⟩] := by
  refine eq_of_increasing (matchesFrom_increasing _ Nat.one_pos _ _)
    (List.pairwise_singleton _ _) ?_
  intro found
  rw [List.mem_singleton]
  constructor
  · intro hfound
    obtain ⟨hpass, hexamined⟩ := mem_examined.mp hfound
    obtain ⟨a, num'⟩ := found
    obtain rfl : a = 0 := honly a hexamined (Option.isSome_of_eq_some hpass)
    have hsame := (isSequence_iff.mp hsite.here).1.symm.trans hpass
    have hnum : num = num' := Option.some.inj hsame
    rw [hnum]
  · intro hfound
    subst hfound
    exact (hsite.mem_examined rfl).2

/-- A place at the null address comes first. -/
theorem sites_eq_cons {num : ℕ} (hsite : IsSite mem pages ⟨0, num⟩) :
    ∃ rest, sites mem pages = ⟨0, num⟩ :: rest := by
  have hsites := areSites_sites mem pages
  have hmem := (hsites.mem_iff _).mpr hsite
  cases hlist : sites mem pages with
  | nil =>
    rw [hlist] at hmem
    cases hmem
  | cons site rest =>
    have hincreasing := hsites.increasing
    rw [hlist] at hmem hincreasing
    rcases List.mem_cons.mp hmem with hhead | hrest
    · exact ⟨rest, by rw [hhead]⟩
    · exact absurd ((List.pairwise_cons.mp hincreasing).1 _ hrest) (Nat.not_lt_zero _)

/-- It alone is due when the callback stops there, and when there is no other. -/
theorem due_eq_singleton {num : ℕ} (hsite : IsSite mem pages ⟨0, num⟩)
    (hlast : callback [] ⟨path, num, 0⟩ = false ∨ ∀ found, IsSite mem pages found →
      found.addr = 0) :
    due mem path callback pages = [⟨0, num⟩] := by
  have hsites := areSites_sites mem pages
  obtain ⟨rest, hlist⟩ := sites_eq_cons hsite
  rw [due, hlist, Delivery.deliver]
  rcases hlast with hstop | hnone
  · have hanswer : Arch.answer path callback .aarch64 [] ⟨0, num⟩ = false := hstop
    rw [hanswer]
    rfl
  · have hrest : rest = [] := by
      refine eq_nil_of_increasing (hlist ▸ hsites.increasing) ?_
      intro later hlater
      refine hnone later ((hsites.mem_iff later).mp ?_)
      rw [hlist]
      exact List.mem_cons_of_mem _ hlater
    rw [hrest]
    split_ifs
    · rfl
    · rfl

/-- One place at the null address is reported as it is due. -/
theorem OnlyAtNull.keepsContract (h : OnlyAtNull mem path callback pages) :
    KeepsContract mem path callback pages := by
  obtain ⟨hfirst, num, hhere, hexamined, hlast⟩ := h
  have hbehind := pages.page_behind
  have hlt := pages.nonempty
  have hsite : IsSite mem pages ⟨0, num⟩ :=
    ⟨hhere, Nat.dvd_zero 4, Nat.le_of_eq hfirst, by change 0 + 12 ≤ _; omega⟩
  rw [keepsContract_iff_due, examined_eq_singleton hsite hexamined, due_eq_singleton hsite hlast]
  rfl

/-- The scan keeps the contract exactly when nothing is there to take for a system call, or one
place at the null address is all that is there and due. -/
theorem keepsContract_iff (mem : Memory) (path : List UInt8) (callback : Callback)
    (pages : CodePages) :
    KeepsContract mem path callback pages ↔
      NothingThere mem pages ∨ OnlyAtNull mem path callback pages := by
  constructor
  · exact KeepsContract.cases
  · intro h
    rcases h with hnothing | hnull
    · obtain ⟨hexamined, hsites⟩ := nothingThere_iff.mp hnothing
      rw [keepsContract_iff_due, due, hexamined, hsites]
      rfl
    · exact hnull.keepsContract

end Exact

/-- One page of code. -/
def onePage : CodePages where
  toCodePages := FindSyscalls.onePage
  behind_word := by decide

/-- Memory with the system call `openat` at the start of the page. -/
def openatFirst : Memory := fun a =>
  if 0x1000 ≤ a then
    [0x07, 0xC0, 0xA0, 0xE1, 0x42, 0x71, 0x00, 0xE3, 0x00, 0x00, 0x00, 0xEF].getD (a - 0x1000) 0
  else 0

/-- The call for `openat` at the start of a page does not say where it is. -/
theorem openat_without_place :
    ¬ KeepsContract openatFirst (Mylibc.ascii "/linker") (fun _ _ => true) onePage := by
  have hsite : IsSite openatFirst onePage ⟨0x1000, 322⟩ :=
    ⟨⟨by decide, by decide, by decide, by decide⟩, by decide, by decide, by decide⟩
  intro h
  rcases h.cases with hnothing | ⟨hfirst, -⟩
  · exact hnothing.2 _ hsite
  · cases hfirst

end XposedJniTrace.FindSyscalls.Arm
