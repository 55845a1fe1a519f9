import XposedJniTrace.Linker.FindSyscalls
import XposedJniTrace.Trace.Mylibc

/-!
# BREAK stops the search

What the answer `BREAK_FIND_SYSCALL` is there for: the callback is called for the matches of the
regions in the order of the maps, up to the first call that it answers so. A scan ends in front of
the last places of its region, the answer ends the scan of one region on arm64 and nothing on arm;
the search keeps to its purpose exactly when none of this comes to bear.
-/

namespace XposedJniTrace.FindSyscalls

open Maps (Region fgets sscanf bufSize)
open Delivery (deliver UntilStop)
open scoped List

/-- The matches at so many places, one stride apart. -/
def matchesFrom (syscallAt : ℕ → Option ℕ) (stride : ℕ) : ℕ → ℕ → List Match
  | _, 0 => []
  | start, n + 1 =>
    ((syscallAt start).map fun num => ⟨start, num⟩).toList ++
      matchesFrom syscallAt stride (start + stride) n

namespace Arch

/-- How far the places are apart that a scan looks at. -/
def stride : Arch → ℕ
  | aarch64 => 4
  | arm => 1

/-- How many bytes a match takes. -/
def span : Arch → ℕ
  | aarch64 => 8
  | arm => 12

/-- How many places at the end of a region a scan does not look at, with room for a match. -/
def missedPlaces : Arch → ℕ
  | aarch64 => 1
  | arm => 5

/-- What a scan takes off the end of a region for its limit. -/
def taken : Arch → ℕ
  | aarch64 => 4 * 2
  | arm => 4 * 4

/-- The number of the system call at an address, on either architecture. -/
def syscallAt (mem : Memory) : Arch → ℕ → Option ℕ
  | aarch64 => AArch64.syscallAt mem
  | arm => Arm.syscallAt mem

variable (arch : Arch) (mem : Memory)

/-- How many places of a region have room for a match. -/
def places (region : Region arch.bits) : ℕ :=
  (region.endAddr - region.begin - arch.span) / arch.stride + 1

/-- The matches inside a region, in order. -/
def regionMatches (region : Region arch.bits) : List Match :=
  matchesFrom (arch.syscallAt mem) arch.stride region.begin (arch.places region)

/-- The matches that a scan of the region comes to. -/
def examined (region : Region arch.bits) : List Match :=
  matchesFrom (arch.syscallAt mem) arch.stride region.begin
    (arch.places region - arch.missedPlaces)

/-- The matches behind those, in the last places of the region. -/
def missed (region : Region arch.bits) : List Match :=
  matchesFrom (arch.syscallAt mem) arch.stride
    (region.begin + arch.stride * (arch.places region - arch.missedPlaces)) arch.missedPlaces

/-- The regions that are searched: readable and executable, with the path in their line. -/
def searched (path : List UInt8) (regions : List (Region arch.bits)) : List (Region arch.bits) :=
  regions.filter fun region =>
    strstr region.line path && (region.readable && region.executable)

/-- The text of the maps. -/
def text (regions : List (Region arch.bits)) : List UInt8 := regions.flatMap Region.line

end Arch

section Scan

variable {syscallAt : ℕ → Option ℕ} {stride : ℕ}

/-- The matches of two stretches in a row are those of the first and those of the second. -/
theorem matchesFrom_add (start n k : ℕ) :
    matchesFrom syscallAt stride start (n + k) =
      matchesFrom syscallAt stride start n ++ matchesFrom syscallAt stride
        (start + stride * n) k := by
  induction n generalizing start with
  | zero => simp [matchesFrom]
  | succ n ih =>
    have hnext : start + stride + stride * n = start + stride * (n + 1) := by ring
    rw [Nat.succ_add, matchesFrom, ih, hnext, matchesFrom, List.append_assoc]

/-- A match at the first address comes first. -/
theorem matchesFrom_of_some {start num : ℕ} (h : syscallAt start = some num) (n : ℕ) :
    matchesFrom syscallAt stride start (n + 1) =
      ⟨start, num⟩ :: matchesFrom syscallAt stride (start + stride) n := by
  simp [matchesFrom, h]

/-- A match is at one of the places. -/
theorem addr_of_mem {start n : ℕ} {found : Match}
    (h : found ∈ matchesFrom syscallAt stride start n) :
    ∃ i, i < n ∧ found.addr = start + stride * i := by
  induction n generalizing start with
  | zero => cases h
  | succ n ih =>
    rw [matchesFrom, List.mem_append] at h
    rcases h with hhere | hlater
    · cases hcall : syscallAt start with
      | none => simp [hcall] at hhere
      | some num =>
        obtain rfl : found = ⟨start, num⟩ := by simpa [hcall] using hhere
        exact ⟨0, Nat.succ_pos n, by simp⟩
    · obtain ⟨i, hi, haddr⟩ := ih hlater
      exact ⟨i + 1, Nat.succ_lt_succ hi, by rw [haddr]; ring⟩

/-- The loop of arm64 delivers the matches of the places that it looks at. -/
theorem AArch64.search_eq (mem : Memory) (callback : List Match → Match → Bool) (n : ℕ)
    (start : ℕ) (calls : List Match) :
    AArch64.search mem callback (start + 4 * (n + 1)) start calls =
      (deliver callback calls (matchesFrom (AArch64.syscallAt mem) 4 start (n + 1))).1 := by
  induction n generalizing start calls with
  | zero =>
    have hlast : ¬ start + 4 < start + 4 * (0 + 1) := by omega
    rw [AArch64.search, matchesFrom, matchesFrom, List.append_nil]
    cases AArch64.syscallAt mem start with
    | none => exact if_neg hlast
    | some num =>
      simp only [if_neg hlast]
      change (if _ then _ else _) = (deliver callback calls [⟨start, num⟩]).1
      rw [deliver]
      split_ifs
      · rfl
      · rfl
  | succ n ih =>
    have hmore : start + 4 < start + 4 * (n + 1 + 1) := by omega
    have hlimit : start + 4 * (n + 1 + 1) = start + 4 + 4 * (n + 1) := by ring
    rw [AArch64.search, matchesFrom]
    cases AArch64.syscallAt mem start with
    | none =>
      simp only [if_pos hmore]
      rw [hlimit, ih]
      rfl
    | some num =>
      simp only [if_pos hmore]
      change (if _ then _ else _) = (deliver callback calls (⟨start, num⟩ :: _)).1
      rw [deliver]
      split_ifs
      · rw [hlimit, ih]
        rfl
      · rfl

/-- The loop of arm calls the callback for every match of the places that it looks at. -/
theorem Arm.search_eq (mem : Memory) (n : ℕ) (start : ℕ) (calls : List Match) :
    Arm.search mem (start + 1 * (n + 1)) start calls =
      calls ++ matchesFrom (Arm.syscallAt mem) 1 start (n + 1) := by
  induction n generalizing start calls with
  | zero =>
    have hlast : ¬ start + 1 < start + 1 * (0 + 1) := by omega
    rw [Arm.search, matchesFrom, matchesFrom, List.append_nil]
    cases Arm.syscallAt mem start with
    | none => exact (if_neg hlast).trans (List.append_nil calls).symm
    | some num => exact if_neg hlast
  | succ n ih =>
    have hmore : start + 1 < start + 1 * (n + 1 + 1) := by omega
    have hlimit : start + 1 * (n + 1 + 1) = start + 1 + 1 * (n + 1) := by ring
    rw [Arm.search, matchesFrom]
    cases Arm.syscallAt mem start with
    | none =>
      simp only [if_pos hmore]
      rw [hlimit, ih]
      rfl
    | some num =>
      simp only [if_pos hmore]
      rw [hlimit, ih, List.append_assoc]
      rfl

end Scan

/-- What a scan that comes to some matches leaves as calls. -/
def Arch.scanned (arch : Arch) (callback : List Match → Match → Bool) (calls items : List Match) :
    List Match :=
  match arch with
  | aarch64 => (deliver callback calls items).1
  | arm => calls ++ items

section Region

variable {arch : Arch} (mem : Memory) (region : Region arch.bits)

/-- A region is made of pages, one at least. -/
theorem Region.size (region : Region arch.bits) :
    4 ∣ region.endAddr - region.begin ∧ region.begin + 4096 ≤ region.endAddr := by
  have hbegin : 4096 ∣ region.begin := region.page_begin
  have hend : 4096 ∣ region.endAddr := region.page_end
  have hlt : region.begin < region.endAddr := region.begin_lt_end
  omega

/-- The places that a scan looks at are some, and end in front of the places that it misses. -/
theorem Arch.places_eq (region : Region arch.bits) :
    ∃ n, arch.places region = n + 1 + arch.missedPlaces ∧
      region.endAddr = region.begin + arch.stride * (n + 1) + arch.taken := by
  obtain ⟨hword, hpage⟩ := Region.size region
  cases arch with
  | aarch64 =>
    refine ⟨(region.endAddr - region.begin) / 4 - 3, ?_, ?_⟩
    · simp only [Arch.places, Arch.span, Arch.stride, Arch.missedPlaces]
      omega
    · simp only [Arch.stride, Arch.taken]
      omega
  | arm =>
    refine ⟨region.endAddr - region.begin - 17, ?_, ?_⟩
    · simp only [Arch.places, Arch.span, Arch.stride, Arch.missedPlaces]
      omega
    · simp only [Arch.stride, Arch.taken]
      omega

/-- A scan comes to the matches of a region but for those in its last places. -/
theorem search_memory_syscall_eq (path : List UInt8) (callback : Callback) (calls : List Match) :
    arch.search_memory_syscall mem path callback region.begin region.endAddr calls =
      arch.scanned (arch.answer path callback) calls (arch.examined mem region) := by
  obtain ⟨n, hplaces, hend⟩ := Arch.places_eq region
  rw [Arch.examined, hplaces, Nat.add_sub_cancel]
  cases arch with
  | aarch64 =>
    change AArch64.search mem _ (region.endAddr - 4 * 2) region.begin calls = _
    rw [hend, Arch.taken, Nat.add_sub_cancel]
    exact AArch64.search_eq mem _ n region.begin calls
  | arm =>
    change Arm.search mem (region.endAddr - 4 * 4) region.begin calls = _
    rw [hend, Arch.taken, Nat.add_sub_cancel]
    exact Arm.search_eq mem n region.begin calls

/-- What the program reports of a region, with what it leaves out behind a break, is what it would
report without one. -/
theorem regionMatches_eq : arch.regionMatches mem region =
    arch.examined mem region ++ arch.missed mem region := by
  obtain ⟨n, hplaces, -⟩ := Arch.places_eq region
  rw [Arch.regionMatches, Arch.examined, Arch.missed, hplaces, Nat.add_sub_cancel, matchesFrom_add]

/-- The matches of a region are inside it. -/
theorem addr_of_mem_regionMatches {found : Match} (h : found ∈ arch.regionMatches mem region) :
    region.begin ≤ found.addr ∧ found.addr < region.endAddr := by
  obtain ⟨i, hi, haddr⟩ := addr_of_mem h
  obtain ⟨n, hplaces, hend⟩ := Arch.places_eq region
  rw [hplaces] at hi
  cases arch with
  | aarch64 =>
    simp only [Arch.stride, Arch.missedPlaces, Arch.taken] at *
    omega
  | arm =>
    simp only [Arch.stride, Arch.missedPlaces, Arch.taken] at *
    omega

end Region

section Search

variable {arch : Arch} (mem : Memory) (callback : List Match → Match → Bool)

/-- The regions that are searched, one after the other. -/
def searchAll (regions : List (Region arch.bits)) (calls : List Match) : List Match :=
  regions.foldl (fun calls region => arch.scanned callback calls (arch.examined mem region)) calls

/-- The answers of the callback reach as far as they are to, behind some calls. While it goes on,
no match is in the last places of a region; the first break is answered to the last match that the
scan comes to, unless it ends the scan, and the scans of the later regions come to no match. -/
def BreakReaches : List Match → List (Region arch.bits) → Prop
  | _, [] => True
  | calls, region :: regions =>
    let delivered := deliver callback calls (arch.examined mem region)
    if delivered.2 then arch.missed mem region = [] ∧ BreakReaches delivered.1 regions
    else (arch = .aarch64 ∨ delivered.1 = calls ++ arch.examined mem region) ∧
      ∀ later ∈ regions, arch.examined mem later = []

variable {mem callback}

/-- A scan calls for at least what is delivered until the break. -/
theorem deliver_prefix_scanned (arch : Arch) (callback : List Match → Match → Bool)
    (calls items : List Match) :
    (deliver callback calls items).1 <+: arch.scanned callback calls items := by
  cases arch with
  | aarch64 => exact List.prefix_rfl
  | arm => exact Delivery.deliver_prefix_append callback calls items

/-- Without a break a scan calls for all that it comes to. -/
theorem scanned_of_goes_on {calls items : List Match}
    (h : (deliver callback calls items).2 = true) :
    arch.scanned callback calls items = (deliver callback calls items).1 := by
  cases arch with
  | aarch64 => rfl
  | arm => exact (Delivery.deliver_of_goes_on h).symm

/-- A scan calls for what is delivered when the break ends it or nothing is left. -/
theorem scanned_eq_deliver_iff (calls items : List Match) :
    arch.scanned callback calls items = (deliver callback calls items).1 ↔
      arch = .aarch64 ∨ (deliver callback calls items).1 = calls ++ items := by
  cases arch with
  | aarch64 => exact iff_of_true rfl (.inl rfl)
  | arm => exact ⟨fun h => .inr h.symm, fun h => (h.resolve_left nofun).symm⟩

/-- A scan adds the calls for some of the matches that it comes to, and some unless there are
none. -/
theorem scanned_eq_append (arch : Arch) (callback : List Match → Match → Bool)
    (calls items : List Match) :
    ∃ added, arch.scanned callback calls items = calls ++ added ∧ added <+: items ∧
      (added = [] ↔ items = []) := by
  cases arch with
  | aarch64 =>
    obtain ⟨added, hadded⟩ := Delivery.prefix_deliver callback calls items
    have hstart := Delivery.deliver_prefix_append callback calls items
    have hnone : (deliver callback calls items).1 = calls ↔ items = [] :=
      Delivery.deliver_eq_self_iff
    rw [← hadded] at hstart hnone
    rw [List.append_right_eq_self] at hnone
    exact ⟨added, hadded.symm, (List.prefix_append_right_inj calls).mp hstart, hnone⟩
  | arm => exact ⟨items, rfl, List.prefix_rfl, Iff.rfl⟩

/-- The search adds calls for matches that its scans come to, and none only when there are none. -/
theorem searchAll_eq_append (mem : Memory) (callback : List Match → Match → Bool)
    (regions : List (Region arch.bits)) (calls : List Match) :
    ∃ added, searchAll mem callback regions calls = calls ++ added ∧
      (∀ found ∈ added, ∃ region ∈ regions, found ∈ arch.examined mem region) ∧
      (added = [] ↔ ∀ region ∈ regions, arch.examined mem region = []) := by
  induction regions generalizing calls with
  | nil => exact ⟨[], (List.append_nil calls).symm, nofun, iff_of_true rfl nofun⟩
  | cons region regions ih =>
    obtain ⟨first, hfirst, hstart, hnone⟩ :=
      scanned_eq_append arch callback calls (arch.examined mem region)
    obtain ⟨second, hsecond, hfrom, hnone'⟩ := ih (calls ++ first)
    refine ⟨first ++ second, ?_, ?_, ?_⟩
    · rw [searchAll, List.foldl_cons, hfirst]
      exact hsecond.trans (List.append_assoc calls first second)
    · intro found hfound
      rcases List.mem_append.mp hfound with h | h
      · exact ⟨region, List.mem_cons_self, hstart.subset h⟩
      · obtain ⟨later, hlater, hmem⟩ := hfrom found h
        exact ⟨later, List.mem_cons_of_mem region hlater, hmem⟩
    · rw [List.append_eq_nil_iff, hnone, hnone', List.forall_mem_cons]

/-- The search calls for the matches of the regions until the first break exactly when the answers
reach as far as they are to. -/
theorem searchAll_iff_breakReaches {regions : List (Region arch.bits)}
    (hsorted : regions.Pairwise fun first second => first.endAddr ≤ second.begin)
    (calls : List Match) :
    searchAll mem callback regions calls =
        (deliver callback calls (regions.flatMap (arch.regionMatches mem))).1 ↔
      BreakReaches mem callback calls regions := by
  induction regions generalizing calls with
  | nil => exact iff_of_true rfl trivial
  | cons region regions ih =>
    obtain ⟨hbehind, hsorted⟩ := List.pairwise_cons.mp hsorted
    rw [List.flatMap_cons, regionMatches_eq, List.append_assoc, Delivery.deliver_append,
      BreakReaches, searchAll, List.foldl_cons]
    change searchAll mem callback regions _ = _ ↔ _
    cases hgo : (deliver callback calls (arch.examined mem region)).2 with
    | true =>
      rw [scanned_of_goes_on hgo, if_pos rfl, if_pos rfl]
      generalize (deliver callback calls (arch.examined mem region)).1 = behind
      cases hmissed : arch.missed mem region with
      | nil =>
        rw [List.nil_append, ih hsorted, and_iff_right rfl]
      | cons found rest =>
        -- the match that is missed comes in front of all that the later scans come to
        refine iff_of_false ?_ (fun h => List.cons_ne_nil found rest h.1)
        intro hsame
        obtain ⟨added, hadded, hfrom, -⟩ := searchAll_eq_append mem callback regions behind
        have hcalled := Delivery.prefix_deliver_cons callback behind found
          (rest ++ regions.flatMap (arch.regionMatches mem))
        rw [← List.cons_append, ← hsame, hadded] at hcalled
        have hfound : found ∈ added :=
          ((List.prefix_append_right_inj behind).mp hcalled).subset List.mem_cons_self
        obtain ⟨later, hlater, hmem⟩ := hfrom found hfound
        have hhere : found ∈ arch.regionMatches mem region := by
          rw [regionMatches_eq, hmissed]
          exact List.mem_append_right _ List.mem_cons_self
        have hthere : found ∈ arch.regionMatches mem later := by
          rw [regionMatches_eq]
          exact List.mem_append_left _ hmem
        have hbefore := (addr_of_mem_regionMatches mem region hhere).2
        have hafter := (addr_of_mem_regionMatches mem later hthere).1
        have hle := hbehind later hlater
        omega
    | false =>
      rw [if_neg Bool.false_ne_true, if_neg Bool.false_ne_true, ← scanned_eq_deliver_iff]
      obtain ⟨added, hadded, -, hnone⟩ := searchAll_eq_append mem callback regions
        (arch.scanned callback calls (arch.examined mem region))
      rw [hadded, ← hnone]
      obtain ⟨extra, hextra⟩ :=
        deliver_prefix_scanned arch callback calls (arch.examined mem region)
      rw [← hextra, List.append_assoc, List.append_right_eq_self, List.append_right_eq_self,
        List.append_eq_nil_iff]

end Search

/-- The maps of a process: its regions, in the order of their addresses. -/
structure ProcMaps (arch : Arch) where
  regions : List (Region arch.bits)
  sorted : regions.Pairwise fun first second => first.endAddr ≤ second.begin

section Maps

variable {arch : Arch} (mem : Memory) (path : List UInt8) (callback : Callback)

/-- The loop over the lines searches the regions that it is to search. -/
theorem findSyscalls_text (regions : List (Region arch.bits)) (calls : List Match) (res : Bool) :
    findSyscalls arch mem path callback (arch.text regions) calls res =
      some (searchAll mem (arch.answer path callback) (arch.searched path regions) calls,
        res || !(arch.searched path regions).isEmpty) := by
  induction regions generalizing calls res with
  | nil =>
    rw [findSyscalls]
    simp [Arch.text, Arch.searched, searchAll]
  | cons region regions ih =>
    have htext : arch.text (region :: regions) = region.line ++ arch.text regions :=
      List.flatMap_cons
    have hsome : region.line ++ arch.text regions ≠ [] := by simp [Region.line]
    rw [findSyscalls, htext, dif_neg hsome, Maps.fgets_region, Maps.sscanf_line]
    simp only [Maps.has_code_perm, search_memory_syscall_eq, ih]
    have hsearched : arch.searched path (region :: regions) =
        if strstr region.line path && (region.readable && region.executable) then
          region :: arch.searched path regions
        else arch.searched path regions := List.filter_cons
    rw [hsearched]
    split_ifs
    · simp [searchAll]
    · rfl

/-- The callback is called for the matches of the searched regions, in the order of the maps, up to
the first call that it answers with a break. -/
def StopsAtBreak (regions : List (Region arch.bits)) : Prop :=
  ∃ calls res,
    findSyscalls arch mem path callback (arch.text regions) [] false = some (calls, res) ∧
      UntilStop (arch.answer path callback) []
        ((arch.searched path regions).flatMap (arch.regionMatches mem)) calls

/-- The calls are those of the searched regions. -/
theorem stopsAtBreak_iff_searchAll (regions : List (Region arch.bits)) :
    StopsAtBreak mem path callback regions ↔
      searchAll mem (arch.answer path callback) (arch.searched path regions) [] =
        (deliver (arch.answer path callback) []
          ((arch.searched path regions).flatMap (arch.regionMatches mem))).1 := by
  rw [StopsAtBreak, findSyscalls_text]
  constructor
  · intro h
    obtain ⟨calls, res, hcalls, huntil⟩ := h
    cases hcalls
    exact Delivery.untilStop_iff.mp huntil
  · intro h
    exact ⟨_, _, rfl, Delivery.untilStop_iff.mpr h⟩

/-- The search stops at the first break, behind the matches of all the regions in front of it,
exactly when the answers reach as far as they are to. -/
theorem stopsAtBreak_iff_breakReaches (maps : ProcMaps arch) :
    StopsAtBreak mem path callback maps.regions ↔
      BreakReaches mem (arch.answer path callback) [] (arch.searched path maps.regions) := by
  rw [stopsAtBreak_iff_searchAll]
  exact searchAll_iff_breakReaches (maps.sorted.sublist List.filter_sublist) []

end Maps

/-- A page of the linker's code at some address. -/
def linkerPage (page : Fin 15) : Region Arch.aarch64.bits where
  beginDigits := [⟨page, by omega⟩, 0, 0, 0]
  endDigits := [⟨page + 1, by omega⟩, 0, 0, 0]
  readable := true
  writable := false
  executable := true
  shared := false
  rest := Mylibc.ascii "00000000 fd:00 7 /linker64"
  begin_digits := List.cons_ne_nil _ _
  end_digits := List.cons_ne_nil _ _
  begin_lt_end := by simp [Maps.digitsValue]
  end_lt := by simp [Maps.digitsValue, Arch.bits]; omega
  page_begin := by simp [Maps.digitsValue]; omega
  page_end := by simp [Maps.digitsValue]; omega
  no_newline := by decide +kernel
  fits := by change 4 + 4 + 26 + 8 < 4196; omega

/-- Memory with the system call `openat` at the start of every page. -/
def openatPages : Memory :=
  fun a => [0x08, 0x07, 0x80, 0xD2, 0x01, 0x00, 0x00, 0xD4].getD (a % 4096) 0

/-- In the page of the linker the scan of arm64 finds an `openat` at the first address. -/
theorem examined_linkerPage (page : Fin 15) :
    ∃ rest, Arch.aarch64.examined openatPages (linkerPage page) =
      ⟨(linkerPage page).begin, 56⟩ :: rest := by
  have hplaces : Arch.aarch64.places (linkerPage page) - Arch.aarch64.missedPlaces = 1021 + 1 := by
    simp [Arch.places, Arch.span, Arch.stride, Arch.missedPlaces, Maps.Bounds.begin,
      Maps.Bounds.endAddr, linkerPage, Maps.digitsValue]
    omega
  have hopenat : ∀ page, AArch64.syscallAt openatPages (linkerPage page).begin = some 56 := by
    decide +kernel
  unfold Arch.examined
  rw [hplaces]
  exact ⟨_, matchesFrom_of_some (hopenat page) 1021⟩

/-- Two pages of the linker, each with the call of `openat` at its start, and a callback that always
answers with a break: it is called for both. -/
theorem called_behind_break :
    ¬ @StopsAtBreak .aarch64 openatPages (Mylibc.ascii "/linker64") (fun _ _ => false)
      [linkerPage 1, linkerPage 2] := by
  have hsorted : [linkerPage 1, linkerPage 2].Pairwise
      fun first second => first.endAddr ≤ second.begin := by
    simp [Maps.Bounds.begin, Maps.Bounds.endAddr, linkerPage, Maps.digitsValue]
  have hsearched : Arch.aarch64.searched (Mylibc.ascii "/linker64") [linkerPage 1, linkerPage 2] =
      [linkerPage 1, linkerPage 2] := by
    have hline : ∀ page, (linkerPage page).line.take 32 ++ Mylibc.ascii "/linker64" ++ [0x0a] =
        (linkerPage page).line := by
      decide +kernel
    have hpath (page : Fin 15) :
        strstr (linkerPage page).line (Mylibc.ascii "/linker64") = true :=
      decide_eq_true ⟨_, _, hline page⟩
    refine List.filter_eq_self.mpr ?_
    intro region hregion
    obtain rfl | rfl : region = linkerPage 1 ∨ region = linkerPage 2 := by simpa using hregion
    · rw [hpath]
      rfl
    · rw [hpath]
      rfl
  rw [stopsAtBreak_iff_searchAll, hsearched, searchAll_iff_breakReaches hsorted]
  obtain ⟨rest, hfirst⟩ := examined_linkerPage 1
  obtain ⟨rest', hsecond⟩ := examined_linkerPage 2
  intro h
  rw [BreakReaches, hfirst] at h
  have hnone := h.2 (linkerPage 2) List.mem_cons_self
  rw [hsecond] at hnone
  cases hnone

end XposedJniTrace.FindSyscalls
