import XposedJniTrace.Linker.FirstSymbol

/-!
# The allocation of a string table

What `read_strtab` allocates against what it stores there and what the comparisons of names read of
it. The size of a table is kept in an `elf_word`, and so is its sum with the terminator's byte: a
table whose size has all its low 32 bits set is stored in an allocation of no byte.
-/

namespace XposedJniTrace.Symbol

open Posix LittleEndian

/-- Nothing is stored or read outside the allocation for the string table of a section: it holds the
bytes that are stored there, with the terminator of a table that is read, and what the names are
compared with lies in it. -/
structure NeverOutside (f : RegularFile) (shdr : Shdr) (symname : List UInt8) : Prop where
  stored : ∀ pos allocated data, (read_strtab f pos shdr).stored = some (allocated, data) →
    data.length ≤ allocated
  read : ∀ pos strtab pos', (read_strtab f pos shdr).result = some (strtab, pos') →
    strtab.data.length ≤ strtab.allocated ∧ ∀ cur_off symtab symval,
      ∀ index ∈ (resolve_symbol_from_symtab f cur_off symtab strtab symname symval).2,
        index < strtab.allocated

section Reads

variable {f : RegularFile}

/-- A comparison with a string that ends reads no byte behind its end. -/
theorem strcmpReads_le {s : List UInt8} (hs : 0 ∈ s) (t : List UInt8) :
    strcmpReads s t ≤ s.length := by
  induction s generalizing t with
  | nil => cases hs
  | cons c s ih =>
    rw [List.length_cons]
    cases t with
    | nil => exact Nat.succ_pos _
    | cons d t =>
      rw [strcmpReads]
      split_ifs with h
      · have hlater : 0 ∈ s := (List.mem_cons.mp hs).resolve_left h.2.symm
        exact Nat.succ_le_succ (ih hlater t)
      · exact Nat.succ_pos _

/-- A table in memory ends with a terminator. -/
structure Strtab.Ends (strtab : Strtab) : Prop where
  last : ∃ bytes, strtab.data = bytes ++ [0] ∧ bytes.length = strtab.size

/-- A table that ends has its size and one terminator in bytes. -/
theorem Strtab.Ends.length {strtab : Strtab} (h : strtab.Ends) :
    strtab.data.length = strtab.size + 1 := by
  obtain ⟨bytes, hdata, hsize⟩ := h.last
  rw [hdata, List.length_append, hsize, List.length_singleton]

/-- A name that starts in front of the terminator is read inside the table. -/
theorem Strtab.Ends.name_lt {strtab : Strtab} (h : strtab.Ends) {start : ℕ}
    (hstart : start < strtab.size) (symname : List UInt8) :
    ∀ index ∈ List.range' start (strcmpReads (strtab.data.drop start) symname),
      index < strtab.data.length := by
  have hlength := h.length
  obtain ⟨bytes, hdata, hsize⟩ := h.last
  have hend : 0 ∈ strtab.data.drop start := by
    rw [hdata, List.drop_append_of_le_length (by omega)]
    exact List.mem_append_right _ (List.mem_singleton.mpr rfl)
  have hle := strcmpReads_le hend symname
  rw [List.length_drop] at hle
  intro index hindex
  have hlt := (List.mem_range'_1.mp hindex).2
  omega

/-- The loop over the symbols reads inside the table. -/
theorem symtabLoop_reads {strtab : Strtab} (h : strtab.Ends) (symname : List UInt8)
    (n pos symval : ℕ)
    {reads : List ℕ} (hreads : ∀ index ∈ reads, index < strtab.data.length) :
    ∀ index ∈ (symtabLoop f strtab symname n pos symval reads).reads,
      index < strtab.data.length := by
  have hmore {start : ℕ} (hstart : start < strtab.size) {reads : List ℕ}
      (hreads : ∀ index ∈ reads, index < strtab.data.length) :
      ∀ index ∈ reads ++ List.range' start (strcmpReads (strtab.data.drop start) (symname ++ [0])),
        index < strtab.data.length := by
    intro index hindex
    rcases List.mem_append.mp hindex with hearlier | hhere
    · exact hreads index hearlier
    · exact h.name_lt hstart (symname ++ [0]) index hhere
  induction n generalizing pos reads with
  | zero => exact hreads
  | succ n ih =>
    rw [symtabLoop]
    dsimp only
    split_ifs with hbytes hstart hfound
    · exact hreads
    · exact hmore hstart hreads
    · exact ih _ (hmore hstart hreads)
    · exact ih _ hreads

/-- The scan of a symbol table reads inside its string table. -/
theorem resolve_symbol_from_symtab_reads {strtab : Strtab} (h : strtab.Ends) (cur_off : ℕ)
    (symtab : Shdr) (symname : List UInt8) (symval : ℕ) :
    ∀ index ∈ (resolve_symbol_from_symtab f cur_off symtab strtab symname symval).2,
      index < strtab.data.length := by
  have hnone : ∀ index ∈ ([] : List ℕ), index < strtab.data.length :=
    List.forall_mem_nil _
  have hloop (n pos : ℕ) : ∀ index ∈ (symtabLoop f strtab symname n pos symval []).reads,
      index < strtab.data.length :=
    symtabLoop_reads h symname n pos symval hnone
  rw [resolve_symbol_from_symtab]
  dsimp only
  split
  · exact hnone
  · split
    · exact hloop _ _
    · split
      · exact hloop _ _
      · exact hloop _ _
    · split
      · exact hloop _ _
      · exact hloop _ _

/-- A string table is not come to, is there in part only, or is there in full; its size and what is
allocated are words. -/
theorem read_strtab_cases (pos : ℕ) (shdr : Shdr) :
    read_strtab f pos shdr = ⟨none, none⟩ ∨
    ((f.read shdr.sh_offset (shdr.sh_size % 2 ^ 32)).length ≠ shdr.sh_size % 2 ^ 32 ∧
      read_strtab f pos shdr = ⟨some ((shdr.sh_size % 2 ^ 32 + 1) % 2 ^ 32,
        f.read shdr.sh_offset (shdr.sh_size % 2 ^ 32)), none⟩) ∨
    ((f.read shdr.sh_offset (shdr.sh_size % 2 ^ 32)).length = shdr.sh_size % 2 ^ 32 ∧
      read_strtab f pos shdr = ⟨some ((shdr.sh_size % 2 ^ 32 + 1) % 2 ^ 32,
          f.read shdr.sh_offset (shdr.sh_size % 2 ^ 32) ++ [0]),
        (fseek pos).map fun pos => (⟨(shdr.sh_size % 2 ^ 32 + 1) % 2 ^ 32,
          f.read shdr.sh_offset (shdr.sh_size % 2 ^ 32) ++ [0], shdr.sh_size % 2 ^ 32⟩, pos)⟩) := by
  rw [read_strtab]
  dsimp only
  by_cases hguard : shdr.sh_size % 2 ^ 32 > SIZE_MAX - 1
  · exact Or.inl (if_pos hguard)
  · rw [if_neg hguard]
    by_cases hoffset : shdr.sh_offset < 2 ^ 63
    · rw [fseek_of_lt hoffset]
      dsimp only
      by_cases hread : (f.read shdr.sh_offset (shdr.sh_size % 2 ^ 32)).length =
        shdr.sh_size % 2 ^ 32
      · exact Or.inr (Or.inr ⟨hread, if_neg (not_not.mpr hread)⟩)
      · exact Or.inr (Or.inl ⟨hread, if_pos hread⟩)
    · rw [fseek, if_neg hoffset]
      exact Or.inl rfl

/-- A string table that is read is there in full. -/
theorem read_strtab_some {pos pos' : ℕ} {shdr : Shdr} {strtab : Strtab}
    (h : (read_strtab f pos shdr).result = some (strtab, pos')) :
    (f.read shdr.sh_offset (shdr.sh_size % 2 ^ 32)).length = shdr.sh_size % 2 ^ 32 ∧
      strtab = ⟨(shdr.sh_size % 2 ^ 32 + 1) % 2 ^ 32,
        f.read shdr.sh_offset (shdr.sh_size % 2 ^ 32) ++ [0], shdr.sh_size % 2 ^ 32⟩ := by
  rcases read_strtab_cases (f := f) pos shdr with heq | ⟨-, heq⟩ | ⟨hread, heq⟩
  · rw [heq] at h
    cases h
  · rw [heq] at h
    cases h
  · rw [heq] at h
    obtain ⟨_, -, hstrtab⟩ := Option.map_eq_some_iff.mp h
    exact ⟨hread, (congrArg Prod.fst hstrtab).symm⟩

/-- What is stored is what the file has of the table, perhaps with a terminator behind all of it. -/
theorem read_strtab_stored {pos allocated : ℕ} {shdr : Shdr} {data : List UInt8}
    (h : (read_strtab f pos shdr).stored = some (allocated, data)) :
    allocated = (shdr.sh_size % 2 ^ 32 + 1) % 2 ^ 32 ∧ data.length ≤ shdr.sh_size % 2 ^ 32 + 1 ∧
      (f.size ≤ shdr.sh_offset → shdr.sh_size % 2 ^ 32 ≠ 0 → data = []) := by
  have hlength := f.length_read shdr.sh_offset (shdr.sh_size % 2 ^ 32)
  rcases read_strtab_cases (f := f) pos shdr with heq | ⟨-, heq⟩ | ⟨hread, heq⟩
  · rw [heq] at h
    cases h
  · rw [heq] at h
    obtain ⟨rfl, rfl⟩ := Prod.mk.inj (Option.some.inj h)
    exact ⟨rfl, by omega, fun hend _ => List.eq_nil_of_length_eq_zero (by omega)⟩
  · rw [heq] at h
    obtain ⟨rfl, rfl⟩ := Prod.mk.inj (Option.some.inj h)
    refine ⟨rfl, ?_, fun hend hsize => absurd hlength (by omega)⟩
    rw [List.length_append, List.length_singleton]
    omega

/-- For a table of the largest size nothing is allocated, and a file with a byte of it has that byte
stored. -/
theorem not_neverOutside_largest {shdr : Shdr} (hsize : shdr.sh_size % 2 ^ 32 = 2 ^ 32 - 1)
    (hoffset : shdr.sh_offset < f.size) (symname : List UInt8) :
    ¬ NeverOutside f shdr symname := by
  intro h
  have hfile : f.size < 2 ^ 63 := f.size_lt
  have hguard : ¬ 2 ^ 32 - 1 > SIZE_MAX - 1 := by decide
  have hlength := f.length_read shdr.sh_offset (2 ^ 32 - 1)
  obtain ⟨data, hstored, hdata⟩ : ∃ data, (read_strtab f 0 shdr).stored = some (0, data) ∧
      0 < data.length := by
    simp only [read_strtab, hsize, if_neg hguard,
      fseek_of_lt (show shdr.sh_offset < 2 ^ 63 by omega)]
    split_ifs with hread
    · exact ⟨_, rfl, by omega⟩
    · exact ⟨_, rfl, by simp⟩
  have hle := h.stored 0 0 data hstored
  omega

end Reads

/-- A string table is only accessed in its allocation exactly when its size, as a word, is not the
largest, or the file ends in front of it. -/
theorem neverOutside_iff (f : RegularFile) (shdr : Shdr) (symname : List UInt8) :
    NeverOutside f shdr symname ↔
      shdr.sh_size % 2 ^ 32 ≠ 2 ^ 32 - 1 ∨ f.size ≤ shdr.sh_offset := by
  have hword : shdr.sh_size % 2 ^ 32 < 2 ^ 32 := Nat.mod_lt _ (by decide)
  constructor
  · intro h
    by_contra hlargest
    obtain ⟨hsize, hend⟩ := not_or.mp hlargest
    exact not_neverOutside_largest (not_not.mp hsize) (Nat.lt_of_not_le hend) symname h
  · intro h
    constructor
    · intro pos allocated data hstored
      obtain ⟨rfl, hlength, hnone⟩ := read_strtab_stored hstored
      rcases h with hsize | hend
      · have hsum : (shdr.sh_size % 2 ^ 32 + 1) % 2 ^ 32 = shdr.sh_size % 2 ^ 32 + 1 :=
          Nat.mod_eq_of_lt (by omega)
        rwa [hsum]
      · by_cases hempty : shdr.sh_size % 2 ^ 32 = 0
        · rwa [hempty] at hlength ⊢
        · rw [hnone hend hempty]
          exact Nat.zero_le _
    · intro pos strtab pos' hread
      obtain ⟨hlength, rfl⟩ := read_strtab_some hread
      have hsize : shdr.sh_size % 2 ^ 32 ≠ 2 ^ 32 - 1 := by
        rcases h with hsize | hend
        · exact hsize
        · intro hsize
          rw [hsize, RegularFile.length_read] at hlength
          omega
      have hsum : (shdr.sh_size % 2 ^ 32 + 1) % 2 ^ 32 = shdr.sh_size % 2 ^ 32 + 1 :=
        Nat.mod_eq_of_lt (by omega)
      rw [hsum]
      have hends : Strtab.Ends ⟨shdr.sh_size % 2 ^ 32 + 1,
          f.read shdr.sh_offset (shdr.sh_size % 2 ^ 32) ++ [0], shdr.sh_size % 2 ^ 32⟩ :=
        ⟨_, rfl, hlength⟩
      refine ⟨hends.length.le, ?_⟩
      intro cur_off symtab symval index hindex
      exact (resolve_symbol_from_symtab_reads hends cur_off symtab symname symval index
        hindex).trans_eq hends.length

/-- The header and the section headers of a file: a symbol table, and its string table of the
largest size behind them. -/
def largestHeaders : List UInt8 :=
  -- the header: e_shoff and e_shnum
  List.replicate 40 0 ++ encode 8 64 ++ List.replicate 12 0 ++ encode 2 2 ++ [0, 0] ++
  -- the symbol table: sh_type, sh_offset, sh_size and sh_link
  encode 4 0 ++ encode 4 2 ++ List.replicate 16 0 ++ encode 8 192 ++ encode 8 24 ++ encode 4 1 ++
  List.replicate 20 0 ++
  -- its string table
  encode 4 0 ++ encode 4 3 ++ List.replicate 16 0 ++ encode 8 192 ++ encode 8 (2 ^ 32 - 1) ++
  encode 4 0 ++ List.replicate 20 0

/-- A file of four gibibytes behind these headers. -/
def largestElf : RegularFile where
  bytes := largestHeaders ++ List.replicate (2 ^ 32) 0
  size_lt := by
    rw [List.length_append, List.length_replicate]
    decide +kernel

/-- A read of the headers of the file. -/
theorem largestElf_read {pos count : ℕ} (h : pos + count ≤ 192) :
    largestElf.read pos count = (largestHeaders.drop pos).take count := by
  have hlength : largestHeaders.length = 192 := by decide +kernel
  change ((largestHeaders ++ _).drop pos).take count = _
  rw [List.drop_append_of_le_length (by omega), List.take_append_of_le_length]
  rw [List.length_drop]
  omega

/-- The string table of the file's symbol table is stored outside its allocation. -/
theorem largest_outside :
    IsSymtab largestElf 0 ∧ ¬ NeverOutside largestElf (linked largestElf 0) [0x61] := by
  have hehdr : ehdr largestElf = ⟨64, 2⟩ := by
    rw [ehdr, largestElf_read (by decide)]
    decide +kernel
  have hsymtab : sectionHeader largestElf 0 = ⟨2, 192, 24, 1⟩ := by
    rw [sectionHeader, hehdr, largestElf_read (by decide)]
    decide +kernel
  have hstrtab : linked largestElf 0 = ⟨3, 192, 2 ^ 32 - 1, 0⟩ := by
    rw [linked, hsymtab, sectionHeader, hehdr, largestElf_read (by decide)]
    decide +kernel
  have hoffset : 192 < largestElf.size := by
    change _ < (largestHeaders ++ List.replicate (2 ^ 32) 0).length
    rw [List.length_append, List.length_replicate]
    decide +kernel
  refine ⟨⟨?_, ?_, ?_⟩, ?_⟩
  · rw [hehdr]
    decide
  · rw [hsymtab]
    rfl
  · rw [hsymtab, hehdr]
    decide
  · rw [hstrtab]
    exact not_neverOutside_largest (Nat.mod_eq_of_lt (by decide)) hoffset [0x61]

end XposedJniTrace.Symbol
