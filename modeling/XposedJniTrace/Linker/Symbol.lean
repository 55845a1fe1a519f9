import XposedJniTrace.Library.Posix

/-!
# `resolve_symbol` of `linker/Symbol.cpp`

The lookup of a symbol in an ELF file, on the 64-bit build: the section headers are read as one
array, and each symbol table is scanned behind its string table, over one `FILE` whose position
each level moves. Of the headers and the symbols the fields that the functions look at are kept.
The file can be opened and memory is there for what is allocated; beside the bytes of a string
table, also of one that is not read in full, stands how much was allocated for them, and beside the
outcome of a scan which of them its comparisons read.
-/

namespace XposedJniTrace.Symbol

open Posix LittleEndian

/-- What is used of `Elf64_Ehdr`. -/
structure Ehdr where
  e_shoff : ℕ
  e_shnum : ℕ
  deriving DecidableEq

/-- What is used of `Elf64_Shdr`. -/
structure Shdr where
  sh_type : ℕ
  sh_offset : ℕ
  sh_size : ℕ
  sh_link : ℕ
  deriving DecidableEq

/-- What is used of `Elf64_Sym`. -/
structure Sym where
  st_name : ℕ
  st_value : ℕ

/-- The number in so many bytes of a record, from an offset on. -/
def member (bytes : List UInt8) (offset width : ℕ) : ℕ := decode ((bytes.drop offset).take width)

/-- `sizeof(Elf_Ehdr)` -/
def sizeofEhdr : ℕ := 64

/-- `sizeof(Elf_Shdr)` -/
def sizeofShdr : ℕ := 64

/-- `sizeof(Elf_Sym)` -/
def sizeofSym : ℕ := 24

/-- The members of an ELF header that are used. -/
def Ehdr.ofBytes (bytes : List UInt8) : Ehdr where
  e_shoff := member bytes 40 8
  e_shnum := member bytes 60 2

/-- The members of a section header that are used. -/
def Shdr.ofBytes (bytes : List UInt8) : Shdr where
  sh_type := member bytes 4 4
  sh_offset := member bytes 24 8
  sh_size := member bytes 32 8
  sh_link := member bytes 40 4

/-- The members of a symbol that are used. -/
def Sym.ofBytes (bytes : List UInt8) : Sym where
  st_name := member bytes 0 4
  st_value := member bytes 8 8

/-- The type of a section that holds a symbol table. -/
def SHT_SYMTAB : ℕ := 2

/-- The largest `size_t` -/
def SIZE_MAX : ℕ := 2 ^ 64 - 1

/-- `fseek` with `SEEK_SET`; null when the offset is negative as a `long`. -/
def fseek (offset : ℕ) : Option ℕ := if offset < 2 ^ 63 then some offset else none

/-- A string table in memory: how much was allocated for it, the bytes stored there, and the size
that is returned. -/
structure Strtab where
  allocated : ℕ
  data : List UInt8
  size : ℕ

/-- What `read_strtab` leaves: how much was allocated, with the bytes that were stored there, where
it comes to that; and the table with the position, null for -1. -/
structure StrtabRead where
  stored : Option (ℕ × List UInt8)
  result : Option (Strtab × ℕ)

/-- `read_strtab` on a file at some position. -/
def read_strtab (f : RegularFile) (pos : ℕ) (shdr : Shdr) : StrtabRead :=
  -- elf_word has 32 bits, and so have its sums
  let sh_size := shdr.sh_size % 2 ^ 32
  if sh_size > SIZE_MAX - 1 then ⟨none, none⟩
  else
    match fseek shdr.sh_offset with
    | none => ⟨none, none⟩
    | some offset =>
      let allocated := (sh_size + 1) % 2 ^ 32
      let data := f.read offset sh_size
      -- what a short read has transferred is in memory before the failure is seen
      if data.length ≠ sh_size then ⟨some (allocated, data), none⟩
      else
        ⟨some (allocated, data ++ [0]),
          (fseek pos).map fun pos => (⟨allocated, data ++ [0], sh_size⟩, pos)⟩

/-- `strcmp` finds no difference. -/
def strcmp : List UInt8 → List UInt8 → Bool
  | c :: s, d :: t => if c = d then c = 0 || strcmp s t else false
  | _, _ => false

/-- How many bytes of the first string `strcmp` reads. -/
def strcmpReads : List UInt8 → List UInt8 → ℕ
  | c :: s, d :: t => if c = d ∧ c ≠ 0 then strcmpReads s t + 1 else 1
  | _, _ => 1

/-- How the loop over the symbols ends. -/
inductive LoopEnd where
  | unread
  | found
  | exhausted
  deriving DecidableEq

/-- What a scan of a symbol table leaves: how it ended, the position, `*symval`, and the indices
of the string table that were read. -/
structure SymtabScan where
  result : LoopEnd
  pos : ℕ
  symval : ℕ
  reads : List ℕ

/-- The loop of `resolve_symbol_from_symtab`, with so many symbols to go. -/
def symtabLoop (f : RegularFile) (strtab : Strtab) (symname : List UInt8) :
    ℕ → ℕ → ℕ → List ℕ → SymtabScan
  | 0, pos, symval, reads => ⟨.exhausted, pos, symval, reads⟩
  | n + 1, pos, symval, reads =>
    let bytes := f.read pos sizeofSym
    if bytes.length ≠ sizeofSym then ⟨.unread, pos + bytes.length, symval, reads⟩
    else
      let sym := Sym.ofBytes bytes
      if sym.st_name < strtab.size then
        let name := strtab.data.drop sym.st_name
        let reads := reads ++ List.range' sym.st_name (strcmpReads name (symname ++ [0]))
        if strcmp name (symname ++ [0]) then ⟨.found, pos + sizeofSym, sym.st_value, reads⟩
        else symtabLoop f strtab symname n (pos + sizeofSym) symval reads
      else symtabLoop f strtab symname n (pos + sizeofSym) symval reads

/-- What a function returns, with the position and `*symval` that it leaves. -/
structure Resolved where
  r : ℤ
  pos : ℕ
  symval : ℕ

/-- `resolve_symbol_from_symtab`, and the indices of the string table that it reads. -/
def resolve_symbol_from_symtab (f : RegularFile) (cur_off : ℕ) (symtab : Shdr) (strtab : Strtab)
    (symname : List UInt8) (symval : ℕ) : Resolved × List ℕ :=
  match fseek symtab.sh_offset with
  | none => (⟨-1, cur_off, symval⟩, [])
  | some offset =>
    let num_syms := symtab.sh_size / sizeofSym % 2 ^ 32
    let scan := symtabLoop f strtab symname num_syms offset symval []
    match scan.result with
    | .unread => (⟨-1, scan.pos, scan.symval⟩, scan.reads)
    | .found | .exhausted =>
      match fseek cur_off with
      | none => (⟨-1, scan.pos, scan.symval⟩, scan.reads)
      | some pos => (⟨if scan.result = .found then 0 else -1, pos, scan.symval⟩, scan.reads)

/-- The loop of `resolve_symbol_from_sections` over the headers from some index on. -/
def sectionsLoop (f : RegularFile) (shdrs : List Shdr) (symname : List UInt8) :
    List Shdr → Resolved → Resolved
  | [], state => state
  | shdr :: rest, state =>
    if shdr.sh_type = SHT_SYMTAB then
      match shdrs[shdr.sh_link]? with
      | none => sectionsLoop f shdrs symname rest state
      | some strtab_shdr =>
        match (read_strtab f state.pos strtab_shdr).result with
        | none => state
        | some (strtab, pos) =>
          let resolved := (resolve_symbol_from_symtab f pos shdr strtab symname state.symval).1
          if resolved.r = 0 then resolved else sectionsLoop f shdrs symname rest resolved
    else sectionsLoop f shdrs symname rest state

/-- The sections are looked through from the first one on. -/
def resolve_symbol_from_sections (f : RegularFile) (pos : ℕ) (shdrs : List Shdr)
    (symname : List UInt8) (symval : ℕ) : Resolved :=
  sectionsLoop f shdrs symname shdrs ⟨-1, pos, symval⟩

/-- The records of an array in so many bytes each. -/
def records (width : ℕ) : ℕ → List UInt8 → List (List UInt8)
  | 0, _ => []
  | n + 1, bytes => bytes.take width :: records width n (bytes.drop width)

/-- `resolve_symbol` of a file that is opened: what it returns, and `*symval`. -/
def resolve_symbol (f : RegularFile) (symname : List UInt8) (symval : ℕ) : ℤ × ℕ :=
  let header := f.read 0 sizeofEhdr
  if header.length ≠ sizeofEhdr then (-1, symval)
  else
    let ehdr := Ehdr.ofBytes header
    match fseek ehdr.e_shoff with
    | none => (-1, symval)
    | some offset =>
      let shnum := ehdr.e_shnum
      let bytes := f.read offset (sizeofShdr * shnum)
      -- fread counts the records that are there in full
      if bytes.length / sizeofShdr ≠ shnum then (-1, symval)
      else
        let shdrs := (records sizeofShdr shnum bytes).map Shdr.ofBytes
        let resolved := resolve_symbol_from_sections f (offset + bytes.length) shdrs symname symval
        (resolved.r, resolved.symval)

end XposedJniTrace.Symbol
