import Mathlib.Data.List.Range
import Mathlib.Tactic.IntervalCases
import XposedJniTrace.Library.FirstOf
import XposedJniTrace.Linker.Symbol

/-!
# The symbol that is found

What `resolve_symbol` is to find, said of the bytes of the file alone: the first entry, by the index
of its section and then by its own, of the symbol tables that have a string table, whose name is
the one that is asked for. On a file whose tables lie inside it this is what the three nested scans
find, and without such an entry they leave `*symval` alone.
-/

namespace XposedJniTrace.Symbol

open Posix LittleEndian

/-- The header of a file. -/
def ehdr (f : RegularFile) : Ehdr := Ehdr.ofBytes (f.read 0 sizeofEhdr)

/-- A section header of the table of a file. -/
def sectionHeader (f : RegularFile) (i : ℕ) : Shdr :=
  Shdr.ofBytes (f.read ((ehdr f).e_shoff + sizeofShdr * i) sizeofShdr)

/-- The string table that a section is linked to. -/
def linked (f : RegularFile) (i : ℕ) : Shdr := sectionHeader f (sectionHeader f i).sh_link

/-- An entry of a symbol table. -/
def entry (f : RegularFile) (symtab : Shdr) (j : ℕ) : Sym :=
  Sym.ofBytes (f.read (symtab.sh_offset + sizeofSym * j) sizeofSym)

/-- The name from an index of a string table on, up to a terminator; one follows the table. -/
def nameAt (f : RegularFile) (strtab : Shdr) (start : ℕ) : List UInt8 :=
  ((f.read strtab.sh_offset strtab.sh_size ++ [0]).drop start).takeWhile (· ≠ 0)

/-- An entry of a symbol table has a name, from a string table. -/
structure Named (f : RegularFile) (symtab strtab : Shdr) (symname : List UInt8) (j : ℕ) : Prop where
  name_lt : (entry f symtab j).st_name < strtab.sh_size
  name_eq : nameAt f strtab (entry f symtab j).st_name = symname

/-- A section is a symbol table with a string table. -/
structure IsSymtab (f : RegularFile) (i : ℕ) : Prop where
  section_lt : i < (ehdr f).e_shnum
  symtab : (sectionHeader f i).sh_type = SHT_SYMTAB
  link_lt : (sectionHeader f i).sh_link < (ehdr f).e_shnum

/-- The entry of a section by some index is one of the name. -/
structure IsEntry (f : RegularFile) (symname : List UInt8) (i j : ℕ) : Prop where
  symtab : IsSymtab f i
  entry_lt : j < (sectionHeader f i).sh_size / sizeofSym
  named : Named f (sectionHeader f i) (linked f i) symname j

/-- The first of the entries of a name. -/
structure IsFirst (f : RegularFile) (symname : List UInt8) (i j : ℕ) : Prop where
  isEntry : IsEntry f symname i j
  first : ∀ i' j', IsEntry f symname i' j' → i < i' ∨ i = i' ∧ j ≤ j'

/-- What `resolve_symbol` is to return and to leave in `*symval`. -/
def Specified (f : RegularFile) (symname : List UInt8) (symval : ℕ) (result : ℤ × ℕ) : Prop :=
  (∃ i j, IsFirst f symname i j ∧ result = (0, (entry f (sectionHeader f i) j).st_value)) ∨
    ((∀ i j, ¬ IsEntry f symname i j) ∧ result = (-1, symval))

/-- A section lies inside the file, with a size that a 32-bit word holds and one more. -/
structure Inside (f : RegularFile) (shdr : Shdr) : Prop where
  end_le : shdr.sh_offset + shdr.sh_size ≤ f.size
  size_lt : shdr.sh_size < 2 ^ 32 - 1

/-- The section header table, the symbol tables and their string tables lie inside the file. -/
structure WellFormed (f : RegularFile) : Prop where
  header : sizeofEhdr ≤ f.size
  sections : (ehdr f).e_shoff + sizeofShdr * (ehdr f).e_shnum ≤ f.size
  tables : ∀ i, IsSymtab f i → Inside f (sectionHeader f i) ∧ Inside f (linked f i)

section Strings

/-- `strcmp` of a string that ends and a name compares what comes in front of the end. -/
theorem strcmp_iff {s symname : List UInt8} (hs : 0 ∈ s) (hname : 0 ∉ symname) :
    strcmp s (symname ++ [0]) = true ↔ s.takeWhile (· ≠ 0) = symname := by
  induction s generalizing symname with
  | nil => cases hs
  | cons c s ih =>
    cases symname with
    | nil => by_cases hc : c = 0 <;> simp [strcmp, hc]
    | cons d symname =>
      obtain ⟨hd, hrest⟩ := List.ne_and_not_mem_of_not_mem_cons hname
      rw [List.cons_append, strcmp]
      by_cases hcd : c = d
      · subst hcd
        have hlater : 0 ∈ s := (List.mem_cons.mp hs).resolve_left hd
        have htake : (c :: s).takeWhile (· ≠ 0) = c :: s.takeWhile (· ≠ 0) :=
          List.takeWhile_cons_of_pos (by simpa using hd.symm)
        rw [if_pos rfl, htake, List.cons.injEq, ← ih hlater hrest]
        simp [hd.symm]
      · rw [if_neg hcd]
        by_cases hc : c = 0
        · simp [hc]
        · simp [hc, hcd]

end Strings

section Tables

variable {f : RegularFile}

/-- A read inside a read. -/
theorem take_drop_read {pos count offset width : ℕ} (h : offset + width ≤ count) :
    ((f.read pos count).drop offset).take width = f.read (pos + offset) width := by
  rw [RegularFile.read, RegularFile.read, List.drop_take, List.drop_drop, List.take_take]
  congr 1
  omega

/-- A read in parts is the list of their records. -/
theorem records_read (width n pos : ℕ) :
    records width n (f.read pos (width * n)) =
      (List.range n).map fun i => f.read (pos + width * i) width := by
  induction n generalizing pos with
  | zero => rfl
  | succ n ih =>
    have hfits : 0 + width ≤ width * (n + 1) := by
      rw [Nat.zero_add]
      exact Nat.le_mul_of_pos_right _ n.succ_pos
    have hfirst : (f.read pos (width * (n + 1))).take width = f.read pos width :=
      take_drop_read hfits
    have hrest : (f.read pos (width * (n + 1))).drop width = f.read (pos + width) (width * n) := by
      rw [RegularFile.read, RegularFile.read, List.drop_take, List.drop_drop, Nat.mul_succ,
        Nat.add_sub_cancel]
    rw [records, hfirst, hrest, ih, List.range_succ_eq_map, List.map_cons, List.map_map]
    congr 1
    refine List.map_congr_left ?_
    intro i _
    rw [Function.comp, Nat.mul_succ]
    congr 1
    omega

/-- An offset that is a `long` that is not negative is taken. -/
theorem fseek_of_lt {offset : ℕ} (h : offset < 2 ^ 63) : fseek offset = some offset := if_pos h

/-- The string table of a section in memory. -/
def tableOf (f : RegularFile) (shdr : Shdr) : Strtab :=
  ⟨shdr.sh_size + 1, f.read shdr.sh_offset shdr.sh_size ++ [0], shdr.sh_size⟩

/-- A string table that lies inside the file is read, and the position is restored. -/
theorem read_strtab_inside {shdr : Shdr} (h : Inside f shdr) {pos : ℕ} (hpos : pos < 2 ^ 63) :
    (read_strtab f pos shdr).result = some (tableOf f shdr, pos) := by
  have hend := h.end_le
  have hsize := h.size_lt
  have hfile : f.size < 2 ^ 63 := f.size_lt
  have hword : shdr.sh_size % 2 ^ 32 = shdr.sh_size := Nat.mod_eq_of_lt (by omega)
  have hsum : (shdr.sh_size + 1) % 2 ^ 32 = shdr.sh_size + 1 := Nat.mod_eq_of_lt (by omega)
  have hguard : ¬ shdr.sh_size > SIZE_MAX - 1 := by
    change ¬ shdr.sh_size > 2 ^ 64 - 1 - 1
    omega
  simp only [read_strtab, hword, hsum, if_neg hguard,
    fseek_of_lt (show shdr.sh_offset < 2 ^ 63 by omega),
    fseek_of_lt hpos, RegularFile.length_read_of_le hend, ne_eq, not_true_eq_false, if_false]
  rfl

/-- An index below the size of a string table is in front of the terminator that follows it. -/
theorem zero_mem_drop {shdr : Shdr} (h : Inside f shdr) {start : ℕ}
    (hstart : start < shdr.sh_size) :
    0 ∈ (tableOf f shdr).data.drop start := by
  have hlength := RegularFile.length_read_of_le h.end_le
  have hdrop : (tableOf f shdr).data.drop start =
      (f.read shdr.sh_offset shdr.sh_size).drop start ++ [0] :=
    List.drop_append_of_le_length (by omega)
  rw [hdrop]
  exact List.mem_append_right _ (List.mem_singleton.mpr rfl)

end Tables

section Scans

variable {f : RegularFile} {symname : List UInt8}

/-- What a scan of a symbol table leaves of it, by the first entry that has the name. -/
def SymtabScan.Left (scan : SymtabScan) (f : RegularFile) (symtab : Shdr) (symval : ℕ) :
    Option ℕ → Prop
  | some j => scan.result = .found ∧ scan.symval = (entry f symtab j).st_value
  | none => scan.result = .exhausted ∧ scan.symval = symval

/-- The loop over the symbols finds the first that has the name. -/
theorem symtabLoop_left {symtab strtab : Shdr} (hstrtab : Inside f strtab) (hname : 0 ∉ symname)
    (symval : ℕ) {n k : ℕ} (hend : symtab.sh_offset + sizeofSym * (k + n) ≤ f.size)
    (reads : List ℕ) :
    ∃ found, FirstOf (Named f symtab strtab symname) k n found ∧
      (symtabLoop f (tableOf f strtab) symname n (symtab.sh_offset + sizeofSym * k)
        symval reads).Left
        f symtab symval found := by
  induction n generalizing k reads with
  | zero => exact ⟨none, FirstOf.empty, rfl, rfl⟩
  | succ n ih =>
    have hbytes : (f.read (symtab.sh_offset + sizeofSym * k) sizeofSym).length = sizeofSym := by
      refine RegularFile.length_read_of_le ?_
      rw [sizeofSym] at *
      omega
    have hnext : symtab.sh_offset + sizeofSym * k + sizeofSym =
        symtab.sh_offset + sizeofSym * (k + 1) := by ring
    have hlast : symtab.sh_offset + sizeofSym * (k + 1 + n) ≤ f.size := by
      rwa [Nat.add_right_comm k 1 n, Nat.add_assoc k n 1]
    have hsym : Sym.ofBytes (f.read (symtab.sh_offset + sizeofSym * k) sizeofSym) =
        entry f symtab k := rfl
    have hsize : (tableOf f strtab).size = strtab.sh_size := rfl
    rw [symtabLoop]
    simp only [hbytes, ne_eq, not_true_eq_false, if_false, hnext, hsym, hsize]
    by_cases hlt : (entry f symtab k).st_name < strtab.sh_size
    · have hcmp := strcmp_iff (zero_mem_drop hstrtab hlt) hname
      rw [if_pos hlt]
      by_cases heq : strcmp ((tableOf f strtab).data.drop (entry f symtab k).st_name)
          (symname ++ [0]) = true
      · rw [if_pos heq]
        exact ⟨some k, FirstOf.here ⟨hlt, hcmp.mp heq⟩, rfl, rfl⟩
      · rw [if_neg heq]
        obtain ⟨found, hfound, hleft⟩ := ih hlast _
        exact ⟨found, FirstOf.later (fun h => heq (hcmp.mpr h.name_eq)) hfound, hleft⟩
    · rw [if_neg hlt]
      obtain ⟨found, hfound, hleft⟩ := ih hlast _
      exact ⟨found, FirstOf.later (fun h => hlt h.name_lt) hfound, hleft⟩

/-- What the scan of a section returns and leaves, by the first entry that has the name. -/
def Resolved.Left (resolved : Resolved) (f : RegularFile) (symtab : Shdr) (pos symval : ℕ) :
    Option ℕ → Prop
  | some j => resolved = ⟨0, pos, (entry f symtab j).st_value⟩
  | none => resolved = ⟨-1, pos, symval⟩

/-- A symbol table that lies inside the file gives the first entry that has the name. -/
theorem resolve_symbol_from_symtab_left {symtab strtab : Shdr} (hsymtab : Inside f symtab)
    (hstrtab : Inside f strtab) (hname : 0 ∉ symname) {pos : ℕ} (hpos : pos < 2 ^ 63) (symval : ℕ) :
    ∃ found, FirstOf (Named f symtab strtab symname) 0 (symtab.sh_size / sizeofSym) found ∧
      (resolve_symbol_from_symtab f pos symtab (tableOf f strtab) symname symval).1.Left
        f symtab pos symval found := by
  have hend := hsymtab.end_le
  have hsize := hsymtab.size_lt
  have hfile : f.size < 2 ^ 63 := f.size_lt
  have hcount : symtab.sh_size / sizeofSym % 2 ^ 32 = symtab.sh_size / sizeofSym :=
    Nat.mod_eq_of_lt ((Nat.div_le_self _ _).trans_lt (by omega))
  have hmul : sizeofSym * (symtab.sh_size / sizeofSym) ≤ symtab.sh_size := Nat.mul_div_le _ _
  have hlast : symtab.sh_offset + sizeofSym * (0 + symtab.sh_size / sizeofSym) ≤ f.size := by
    rw [Nat.zero_add]
    omega
  obtain ⟨found, hfound, hleft⟩ := symtabLoop_left hstrtab hname symval hlast []
  refine ⟨found, hfound, ?_⟩
  rw [Nat.mul_zero, Nat.add_zero] at hleft
  rw [resolve_symbol_from_symtab, fseek_of_lt (by omega), hcount]
  cases found with
  | some j =>
    obtain ⟨hresult, hsymval⟩ := hleft
    simp only [hresult, fseek_of_lt hpos, hsymval]
    rfl
  | none =>
    obtain ⟨hresult, hsymval⟩ := hleft
    simp only [hresult, fseek_of_lt hpos, hsymval]
    rfl

/-- A section has an entry of the name. -/
def HasEntry (f : RegularFile) (symname : List UInt8) (i : ℕ) : Prop := ∃ j, IsEntry f symname i j

/-- A section gives the first of its entries of the name. -/
def Gives (f : RegularFile) (symname : List UInt8) (i value : ℕ) : Prop :=
  ∃ j, IsEntry f symname i j ∧ (∀ j', j' < j → ¬ IsEntry f symname i j') ∧
    value = (entry f (sectionHeader f i) j).st_value

/-- What the loop over the sections leaves, by the first of them that has an entry of the name. -/
def Resolved.LeftOf (resolved : Resolved) (f : RegularFile) (symname : List UInt8) (symval : ℕ) :
    Option ℕ → Prop
  | some i => resolved.r = 0 ∧ Gives f symname i resolved.symval
  | none => resolved.r = -1 ∧ resolved.symval = symval

/-- The headers of the table of a file. -/
def shdrs (f : RegularFile) : List Shdr := (List.range (ehdr f).e_shnum).map (sectionHeader f)

/-- The section headers that are read are those of the table. -/
theorem shdrs_eq (f : RegularFile) :
    (records sizeofShdr (ehdr f).e_shnum
        (f.read (ehdr f).e_shoff (sizeofShdr * (ehdr f).e_shnum))).map Shdr.ofBytes = shdrs f := by
  rw [records_read, List.map_map]
  rfl

/-- A header of the table, by its index. -/
theorem getElem?_shdrs (f : RegularFile) (i : ℕ) :
    (shdrs f)[i]? = if i < (ehdr f).e_shnum then some (sectionHeader f i) else none := by
  rw [shdrs, List.getElem?_map]
  split_ifs with h
  · rw [List.getElem?_range h]
    rfl
  · rw [List.getElem?_eq_none (by rw [List.length_range]; omega)]
    rfl

/-- A symbol table is scanned, and the loop ends with it or goes on behind it. -/
theorem sectionsLoop_symtab (hwf : WellFormed f) {k : ℕ} (hsymtab : IsSymtab f k) {pos : ℕ}
    (hpos : pos < 2 ^ 63) (symval : ℕ) (rest : List Shdr) :
    sectionsLoop f (shdrs f) symname (sectionHeader f k :: rest) ⟨-1, pos, symval⟩ =
      let resolved := (resolve_symbol_from_symtab f pos (sectionHeader f k) (tableOf f (linked f k))
        symname symval).1
      if resolved.r = 0 then resolved else sectionsLoop f (shdrs f) symname rest resolved := by
  have hlinked : sectionHeader f (sectionHeader f k).sh_link = linked f k := rfl
  rw [sectionsLoop, if_pos hsymtab.symtab, getElem?_shdrs, if_pos hsymtab.link_lt]
  simp only [hlinked, read_strtab_inside (hwf.tables k hsymtab).2 hpos]

/-- A section that is no symbol table with a string table is passed over. -/
theorem sectionsLoop_other {k : ℕ} (hk : k < (ehdr f).e_shnum) (hother : ¬ IsSymtab f k)
    (state : Resolved) (rest : List Shdr) :
    sectionsLoop f (shdrs f) symname (sectionHeader f k :: rest) state =
      sectionsLoop f (shdrs f) symname rest state := by
  rw [sectionsLoop, getElem?_shdrs]
  split_ifs with htype hlink
  · exact absurd ⟨hk, htype, hlink⟩ hother
  · rfl
  · rfl

/-- The loop over the sections gives the first of them that has an entry of the name. -/
theorem sectionsLoop_left (hwf : WellFormed f) (hname : 0 ∉ symname) {n k : ℕ}
    (hcount : k + n = (ehdr f).e_shnum) {pos : ℕ} (hpos : pos < 2 ^ 63) (symval : ℕ) :
    ∃ found, FirstOf (HasEntry f symname) k n found ∧
      (sectionsLoop f (shdrs f) symname ((List.range' k n).map (sectionHeader f))
        ⟨-1, pos, symval⟩).LeftOf f symname symval found := by
  induction n generalizing k with
  | zero => exact ⟨none, FirstOf.empty, rfl, rfl⟩
  | succ n ih =>
    obtain ⟨found, hfound, hleft⟩ := ih (k := k + 1) (by omega)
    rw [List.range'_succ, List.map_cons]
    by_cases hsymtab : IsSymtab f k
    · obtain ⟨hinside, hlinked⟩ := hwf.tables k hsymtab
      obtain ⟨hit, hfirst, hresolved⟩ :=
        resolve_symbol_from_symtab_left hinside hlinked hname hpos symval
      rw [sectionsLoop_symtab hwf hsymtab hpos]
      cases hit with
      | some j =>
        obtain ⟨-, hlt, hnamed, hbefore⟩ := hfirst
        change _ = Resolved.mk _ _ _ at hresolved
        have hentry : IsEntry f symname k j := ⟨hsymtab, by omega, hnamed⟩
        have hno (j' : ℕ) (hj' : j' < j) : ¬ IsEntry f symname k j' := fun h =>
          hbefore j' (Nat.zero_le j') hj' h.named
        refine ⟨some k, FirstOf.here ⟨j, hentry⟩, ?_⟩
        simp only [hresolved, if_true]
        exact ⟨rfl, j, hentry, hno, rfl⟩
      | none =>
        change _ = Resolved.mk _ _ _ at hresolved
        have hnone : ¬ HasEntry f symname k := fun ⟨j, h⟩ =>
          hfirst j (Nat.zero_le j) (by rw [Nat.zero_add]; exact h.entry_lt) h.named
        refine ⟨found, FirstOf.later hnone hfound, ?_⟩
        simp only [hresolved]
        exact hleft
    · have hnone : ¬ HasEntry f symname k := fun ⟨j, h⟩ => hsymtab h.symtab
      rw [sectionsLoop_other (by omega) hsymtab]
      exact ⟨found, FirstOf.later hnone hfound, hleft⟩

end Scans

/-- A file that is well formed is read up to its section headers. -/
theorem resolve_symbol_eq {f : RegularFile} (hwf : WellFormed f) (symname : List UInt8)
    (symval : ℕ) :
    resolve_symbol f symname symval =
      let resolved := sectionsLoop f (shdrs f) symname (shdrs f)
        ⟨-1, (ehdr f).e_shoff + sizeofShdr * (ehdr f).e_shnum, symval⟩
      (resolved.r, resolved.symval) := by
  have hsections := hwf.sections
  have hfile : f.size < 2 ^ 63 := f.size_lt
  have hheader : (f.read 0 sizeofEhdr).length = sizeofEhdr :=
    RegularFile.length_read_of_le (by rw [Nat.zero_add]; exact hwf.header)
  have htable := RegularFile.length_read_of_le hsections
  have hcount : sizeofShdr * (ehdr f).e_shnum / sizeofShdr = (ehdr f).e_shnum :=
    Nat.mul_div_cancel_left _ (by decide)
  have hoffset : fseek (ehdr f).e_shoff = some (ehdr f).e_shoff := fseek_of_lt (by omega)
  have hehdr : Ehdr.ofBytes (f.read 0 sizeofEhdr) = ehdr f := rfl
  rw [resolve_symbol]
  simp only [hheader, ne_eq, not_true_eq_false, if_false, hehdr, hoffset, htable, hcount, shdrs_eq]
  rfl

/-- On a file whose tables lie inside it, the first entry of the name is found, and without one
`*symval` is left alone. -/
theorem resolve_symbol_specified {f : RegularFile} (hwf : WellFormed f) {symname : List UInt8}
    (hname : 0 ∉ symname) (symval : ℕ) :
    Specified f symname symval (resolve_symbol f symname symval) := by
  have hsections := hwf.sections
  have hfile : f.size < 2 ^ 63 := f.size_lt
  have hpos : (ehdr f).e_shoff + sizeofShdr * (ehdr f).e_shnum < 2 ^ 63 := by omega
  obtain ⟨found, hfound, hleft⟩ :=
    sectionsLoop_left hwf hname (Nat.zero_add (ehdr f).e_shnum) hpos symval
  rw [← List.range_eq_range'] at hleft
  rw [resolve_symbol_eq hwf]
  cases found with
  | some i =>
    obtain ⟨-, -, -, hbefore⟩ := hfound
    obtain ⟨hr, j, hentry, hno, hvalue⟩ := hleft
    refine .inl ⟨i, j, ⟨hentry, ?_⟩, Prod.ext hr hvalue⟩
    intro i' j' h'
    rcases Nat.lt_trichotomy i i' with hlt | rfl | hgt
    · exact .inl hlt
    · exact .inr ⟨rfl, Nat.le_of_not_lt fun hlt => hno j' hlt h'⟩
    · exact absurd ⟨j', h'⟩ (hbefore i' (Nat.zero_le i') hgt)
  | none =>
    obtain ⟨hr, hvalue⟩ := hleft
    refine .inr ⟨?_, Prod.ext hr hvalue⟩
    intro i j h
    exact hfound i (Nat.zero_le i) (by rw [Nat.zero_add]; exact h.symtab.section_lt) ⟨j, h⟩

/-- A file with one symbol table of one entry, for the name "a" at 0x1234. -/
def tinyElf : RegularFile where
  bytes :=
    -- the header: e_shoff and e_shnum
    List.replicate 40 0 ++ encode 8 64 ++ List.replicate 12 0 ++ encode 2 2 ++ [0, 0] ++
    -- the symbol table: sh_type, sh_offset, sh_size and sh_link
    encode 4 0 ++ encode 4 2 ++ List.replicate 16 0 ++ encode 8 192 ++ encode 8 24 ++ encode 4 1 ++
    List.replicate 20 0 ++
    -- its string table
    encode 4 0 ++ encode 4 3 ++ List.replicate 16 0 ++ encode 8 216 ++ encode 8 3 ++ encode 4 0 ++
    List.replicate 20 0 ++
    -- the entry: st_name and st_value
    encode 4 1 ++ [0, 0, 0, 0] ++ encode 8 0x1234 ++ encode 8 0 ++ [0x00, 0x61, 0x00]
  size_lt := by simp

/-- The ELF file of the example is well formed. -/
theorem tinyElf_wellFormed : WellFormed tinyElf := by
  have hsize : tinyElf.size = 219 := by decide +kernel
  have hehdr : ehdr tinyElf = ⟨64, 2⟩ := by decide +kernel
  have hsymtab : sectionHeader tinyElf 0 = ⟨2, 192, 24, 1⟩ := by decide +kernel
  have hstrtab : sectionHeader tinyElf 1 = ⟨3, 216, 3, 0⟩ := by decide +kernel
  refine ⟨?_, ?_, ?_⟩
  · rw [hsize]
    decide
  · rw [hsize, hehdr]
    decide
  · intro i h
    have hlt : i < 2 := by simpa [hehdr] using h.section_lt
    interval_cases i
    · rw [linked, hsymtab]
      simp only [hstrtab]
      exact ⟨⟨hsize.ge.trans' (by decide), by decide⟩, hsize.ge.trans' (by decide), by decide⟩
    · have htype := h.symtab
      rw [hstrtab] at htype
      exact absurd htype (by decide)

/-- The name of the one entry is found. -/
theorem tinyElf_specified :
    resolve_symbol tinyElf [0x61] 0 = (0, 0x1234) ∧ Specified tinyElf [0x61] 0 (0, 0x1234) := by
  have hresult : resolve_symbol tinyElf [0x61] 0 = (0, 0x1234) := by decide +kernel
  have hspecified := resolve_symbol_specified tinyElf_wellFormed
    (by decide : (0 : UInt8) ∉ [0x61]) 0
  rw [hresult] at hspecified
  exact ⟨hresult, hspecified⟩

end XposedJniTrace.Symbol
