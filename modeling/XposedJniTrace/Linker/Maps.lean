import Mathlib.Data.List.Basic
import Mathlib.Data.List.Infix
import Mathlib.Tactic.Ring

/-!
# The maps of a process

The lines of `/proc/self/maps` as the kernel writes them, and what `findSyscalls` of
`findsyscall/BinarySyscallFinder.cpp` makes of one: `fgets` into its buffer, the conversions of
`sscanf` that it uses, and `has_code`. A line fits the buffer, which holds a path of the greatest
length and a hundred bytes more. Signs and `0x` of the conversion `%lx` do not occur in a line and
are left out, as are the fields behind the permissions, which are read and not used.
-/

namespace XposedJniTrace.Maps

/-- `PATH_MAX + 100`, the size of the buffer. -/
def bufSize : ℕ := 4096 + 100

/-- `fgets` of so many bytes: the bytes through the first newline, and what is left. -/
def fgets : ℕ → List UInt8 → List UInt8 × List UInt8
  | 0, text => ([], text)
  | _ + 1, [] => ([], [])
  | n + 1, c :: text =>
    if c = 0x0a then ([c], text) else ((c :: (fgets n text).1), (fgets n text).2)

/-- Nothing is lost between two calls of `fgets`. -/
theorem fgets_append (n : ℕ) (text : List UInt8) : (fgets n text).1 ++ (fgets n text).2 = text := by
  induction n generalizing text with
  | zero => rfl
  | succ n ih =>
    cases text with
    | nil => rfl
    | cons c text =>
      rw [fgets]
      split_ifs
      · rfl
      · exact congrArg (c :: ·) (ih text)

/-- A call of `fgets` leaves no more than there was. -/
theorem length_fgets_le (n : ℕ) (text : List UInt8) : (fgets n text).2.length ≤ text.length := by
  induction n generalizing text with
  | zero => exact le_refl _
  | succ n ih =>
    cases text with
    | nil => exact le_refl _
    | cons c text =>
      rw [fgets]
      split_ifs
      · exact Nat.le_succ _
      · exact (ih text).trans (Nat.le_succ _)

/-- Something is read of a text that has not ended. -/
theorem length_fgets (n : ℕ) {text : List UInt8} (h : text ≠ []) :
    (fgets (n + 1) text).2.length < text.length := by
  cases text with
  | nil => exact absurd rfl h
  | cons c text =>
    rw [fgets]
    split_ifs
    · exact Nat.lt_succ_self _
    · exact Nat.lt_succ_of_le (length_fgets_le n text)

/-- The white space of the C locale. -/
def isspace (c : UInt8) : Bool := c = 0x20 || (0x09 ≤ c && c ≤ 0x0d)

/-- The value of a hexadecimal digit. -/
def hexValue (c : UInt8) : Option ℕ :=
  if 0x30 ≤ c ∧ c ≤ 0x39 then some (c.toNat - 0x30)
  else if 0x61 ≤ c ∧ c ≤ 0x66 then some (c.toNat - 0x57)
  else if 0x41 ≤ c ∧ c ≤ 0x46 then some (c.toNat - 0x37)
  else none

/-- The digits of a hexadecimal number, behind those that make up a value, and what follows. -/
def hexDigits (value : ℕ) : List UInt8 → ℕ × List UInt8
  | [] => (value, [])
  | c :: text =>
    match hexValue c with
    | none => (value, c :: text)
    | some digit => hexDigits (16 * value + digit) text

/-- The conversion `%lx` for numbers of so many bits; null when there is no digit. -/
def scanHex (bits : ℕ) (text : List UInt8) : Option (ℕ × List UInt8) :=
  match text.dropWhile isspace with
  | [] => none
  | c :: rest =>
    if (hexValue c).isSome then
      let (value, rest) := hexDigits 0 (c :: rest)
      some (min value (2 ^ bits - 1), rest)
    else none

/-- The conversion `%4s`. -/
def scanWord (text : List UInt8) : Option (List UInt8 × List UInt8) :=
  match (text.dropWhile isspace).take 4 |>.takeWhile (!isspace ·) with
  | [] => none
  | c :: word => some (c :: word, (text.dropWhile isspace).drop (word.length + 1))

/-- What `findSyscalls` uses of a line. -/
structure Scanned where
  begin : ℕ
  endAddr : ℕ
  perm : List UInt8
  deriving DecidableEq

/-- `sscanf(buf, "%lx-%lx %4s ...", &begin, &end, perm, ...)`; null when not all are assigned. -/
def sscanf (bits : ℕ) (buf : List UInt8) : Option Scanned :=
  match scanHex bits buf with
  | some (first, 0x2d :: text) =>
    match scanHex bits text with
    | some (last, text) =>
      match scanWord text with
      | some (perm, _) => some ⟨first, last, perm⟩
      | none => none
    | none => none
  | _ => none

/-- The loop goes over the array of five, the terminator included. -/
def has_code (perm : List UInt8) : Bool :=
  let found := ((perm ++ [0]).take 5).foldl
    (fun (found : Bool × Bool) (c : UInt8) =>
      (if c = 0x72 then true else found.1, if c = 0x78 then true else found.2)) (false, false)
  found.1 && found.2

/-- A digit as the kernel writes it. -/
def hexDigit (d : Fin 16) : UInt8 :=
  if d.val < 10 then UInt8.ofNat (0x30 + d) else UInt8.ofNat (0x57 + d)

/-- The number that some digits spell. -/
def digitsValue (digits : List (Fin 16)) : ℕ := digits.foldl (fun value d => 16 * value + d.val) 0

/-- A digit of a decimal number. -/
def decDigit (d : Fin 10) : UInt8 := UInt8.ofNat (0x30 + d)

/-- The bounds of a mapping, which its line starts with, with any number of leading zeros. -/
structure Bounds where
  beginDigits : List (Fin 16)
  endDigits : List (Fin 16)
  begin_digits : beginDigits ≠ []
  end_digits : endDigits ≠ []

namespace Bounds

variable (bounds : Bounds)

/-- The first address of the mapping. -/
def begin : ℕ := digitsValue bounds.beginDigits

/-- The address behind the mapping. -/
def endAddr : ℕ := digitsValue bounds.endDigits

/-- The first word of the line. -/
def text : List UInt8 := bounds.beginDigits.map hexDigit ++ 0x2d :: bounds.endDigits.map hexDigit

end Bounds

/-- A mapped region, as its line has it: its bounds, its permissions, and the rest of the line. -/
structure Region (bits : ℕ) extends Bounds where
  readable : Bool
  writable : Bool
  executable : Bool
  shared : Bool
  rest : List UInt8
  begin_lt_end : digitsValue beginDigits < digitsValue endDigits
  end_lt : digitsValue endDigits < 2 ^ bits
  page_begin : 4096 ∣ digitsValue beginDigits
  page_end : 4096 ∣ digitsValue endDigits
  no_newline : 0x0a ∉ rest
  fits : beginDigits.length + endDigits.length + rest.length + 8 < bufSize

namespace Region

variable {bits : ℕ} (region : Region bits)

/-- The permissions as the line has them. -/
def perm : List UInt8 :=
  [if region.readable then 0x72 else 0x2d, if region.writable then 0x77 else 0x2d,
    if region.executable then 0x78 else 0x2d, if region.shared then 0x73 else 0x70]

/-- The line of a region. -/
def line : List UInt8 :=
  region.text ++ 0x20 :: region.perm ++ 0x20 :: region.rest ++ [0x0a]

end Region

/-- A field of a line between two blanks. -/
structure Field where
  bytes : List UInt8
  nonempty : bytes ≠ []
  no_space : ∀ c ∈ bytes, isspace c = false
  length_lt : bytes.length < 12

/-- A pathname of a mapping; the kernel escapes newlines in it. -/
structure Pathname where
  bytes : List UInt8
  nonempty : bytes ≠ []
  no_newline : 0x0a ∉ bytes
  starts : ∀ c ∈ bytes.head?, isspace c = false
  length_lt : bytes.length < 4096

/-- What `%s` reads of a pathname. -/
def Pathname.firstWord (p : Pathname) : List UInt8 := p.bytes.takeWhile (!isspace ·)

/-- A whole line: the bounds of a mapping, its other fields, and its pathname if it has one, behind
one blank and so many more. -/
structure Line extends Bounds where
  perms : Field
  offsetDigits : List (Fin 16)
  dev : Field
  inodeDigits : List (Fin 10)
  gap : ℕ
  pathname : Option Pathname
  offset_digits : offsetDigits ≠ []
  inode_digits : inodeDigits ≠ []

namespace Line

variable (line : Line)

/-- What comes in front of the pathname. -/
def header : List UInt8 :=
  line.text ++ 0x20 :: (line.perms.bytes ++ 0x20 :: (line.offsetDigits.map hexDigit ++
    0x20 :: (line.dev.bytes ++ 0x20 :: (line.inodeDigits.map decDigit ++
      0x20 :: List.replicate line.gap 0x20))))

/-- The pathname, and nothing when there is none. -/
def path : List UInt8 := (line.pathname.map Pathname.bytes).getD []

/-- The line without its newline. -/
def body : List UInt8 := line.header ++ line.path

/-- The line as it stands in the text. -/
def bytes : List UInt8 := line.body ++ [0x0a]

end Line

section Scan

/-- A digit has its own value. -/
theorem hexValue_hexDigit : ∀ d : Fin 16, hexValue (hexDigit d) = some d.val := by decide

/-- A hexadecimal digit is no white space. -/
theorem isspace_hexDigit : ∀ d : Fin 16, isspace (hexDigit d) = false := by decide

/-- A decimal digit is no white space. -/
theorem isspace_decDigit : ∀ d : Fin 10, isspace (decDigit d) = false := by decide

/-- White space is not among bytes that are none. -/
theorem notMem_of_no_space {bytes : List UInt8} (h : ∀ c ∈ bytes, isspace c = false) {c : UInt8}
    (hc : isspace c = true) : c ∉ bytes := by
  intro hmem
  rw [h c hmem] at hc
  cases hc

/-- There is no white space in a hexadecimal number. -/
theorem no_space_hex (digits : List (Fin 16)) : ∀ c ∈ digits.map hexDigit, isspace c = false := by
  intro c hc
  obtain ⟨d, -, rfl⟩ := List.mem_map.mp hc
  exact isspace_hexDigit d

/-- There is no white space in a decimal number. -/
theorem no_space_dec (digits : List (Fin 10)) : ∀ c ∈ digits.map decDigit, isspace c = false := by
  intro c hc
  obtain ⟨d, -, rfl⟩ := List.mem_map.mp hc
  exact isspace_decDigit d

/-- There is no white space in the bounds. -/
theorem Bounds.no_space (bounds : Bounds) : ∀ c ∈ bounds.text, isspace c = false := by
  intro c hc
  rcases List.mem_append.mp hc with hbegin | hend
  · exact no_space_hex _ c hbegin
  · rcases List.mem_cons.mp hend with rfl | hend
    · rfl
    · exact no_space_hex _ c hend

/-- `%s` reads something of a pathname. -/
theorem Pathname.firstWord_ne_nil (p : Pathname) : p.firstWord ≠ [] := by
  cases hbytes : p.bytes with
  | nil => exact absurd hbytes p.nonempty
  | cons c rest =>
    have hc : isspace c = false := p.starts c (by rw [hbytes]; rfl)
    rw [Pathname.firstWord, hbytes, List.takeWhile_cons_of_pos (by rw [hc]; rfl)]
    exact List.cons_ne_nil _ _

/-- There is no newline in a line. -/
theorem Line.newline_notMem_body (line : Line) : 0x0a ∉ line.body := by
  have hbounds := notMem_of_no_space line.no_space (c := 0x0a) rfl
  have hperms := notMem_of_no_space line.perms.no_space (c := 0x0a) rfl
  have hoffset := notMem_of_no_space (no_space_hex line.offsetDigits) (c := 0x0a) rfl
  have hdev := notMem_of_no_space line.dev.no_space (c := 0x0a) rfl
  have hinode := notMem_of_no_space (no_space_dec line.inodeDigits) (c := 0x0a) rfl
  have hgap : 0x0a ∉ List.replicate line.gap (0x20 : UInt8) := fun hmem =>
    absurd (List.eq_of_mem_replicate hmem) (by decide)
  have hpath : 0x0a ∉ line.path := by
    rw [Line.path]
    cases line.pathname with
    | none => exact List.not_mem_nil
    | some pathname => exact pathname.no_newline
  simp only [Line.body, Line.header, List.mem_append, List.mem_cons, not_or]
  exact ⟨⟨hbounds, by decide, hperms, by decide, hoffset, by decide, hdev, by decide, hinode,
    by decide, hgap⟩, hpath⟩

/-- The digits of a number are read up to the first byte that is no digit. -/
theorem hexDigits_map (value : ℕ) (digits : List (Fin 16)) {c : UInt8} (hc : hexValue c = none)
    (text : List UInt8) :
    hexDigits value (digits.map hexDigit ++ c :: text) =
      (digits.foldl (fun value d => 16 * value + d.val) value, c :: text) := by
  induction digits generalizing value with
  | nil => simp [hexDigits, hc]
  | cons d digits ih => simp [hexDigits, hexValue_hexDigit, ih]

/-- `%lx` reads the digits of a number, or the largest one. -/
theorem scanHex_digits {bits : ℕ} {digits : List (Fin 16)} (hdigits : digits ≠ []) {c : UInt8}
    (hc : hexValue c = none) (text : List UInt8) :
    scanHex bits (digits.map hexDigit ++ c :: text) =
      some (min (digitsValue digits) (2 ^ bits - 1), c :: text) := by
  cases digits with
  | nil => exact absurd rfl hdigits
  | cons d digits =>
    have hread := hexDigits_map 0 (d :: digits) hc text
    rw [List.map_cons, List.cons_append] at hread ⊢
    have hnospace : (hexDigit d :: (digits.map hexDigit ++ c :: text)).dropWhile isspace =
        hexDigit d :: (digits.map hexDigit ++ c :: text) :=
      List.dropWhile_cons_of_neg (by simp [isspace_hexDigit])
    simp only [scanHex, hnospace, hexValue_hexDigit, Option.isSome_some, if_true, hread]
    rfl

/-- `%lx` reads a number that fits. -/
theorem scanHex_map {bits : ℕ} {digits : List (Fin 16)} (hdigits : digits ≠ [])
    (hfits : digitsValue digits < 2 ^ bits) {c : UInt8} (hc : hexValue c = none)
    (text : List UInt8) :
    scanHex bits (digits.map hexDigit ++ c :: text) = some (digitsValue digits, c :: text) := by
  rw [scanHex_digits hdigits hc, Nat.min_eq_left (by omega)]

/-- `%4s` reads the four permissions behind a blank. -/
theorem scanWord_perm {bits : ℕ} (region : Region bits) (text : List UInt8) :
    scanWord (0x20 :: region.perm ++ text) = some (region.perm, text) := by
  unfold Region.perm
  cases region.readable <;> cases region.writable <;> cases region.executable <;>
    cases region.shared <;> rfl

/-- What can be read and executed has code. -/
theorem has_code_perm {bits : ℕ} (region : Region bits) :
    has_code region.perm = (region.readable && region.executable) := by
  unfold Region.perm
  cases region.readable <;> cases region.writable <;> cases region.executable <;>
    cases region.shared <;> rfl

/-- The line of a region is read as the region that it is. -/
theorem sscanf_line {bits : ℕ} (region : Region bits) :
    sscanf bits region.line = some ⟨region.begin, region.endAddr, region.perm⟩ := by
  have hbegin : digitsValue region.beginDigits < 2 ^ bits :=
    region.begin_lt_end.trans region.end_lt
  rw [sscanf, Region.line, Bounds.text]
  simp only [List.append_assoc, List.cons_append]
  rw [scanHex_map region.begin_digits hbegin (by decide)]
  simp only
  rw [scanHex_map region.end_digits region.end_lt (by decide)]
  simp only
  rw [← List.cons_append, scanWord_perm]
  rfl

/-- `fgets` reads a line that fits. -/
theorem fgets_line {n : ℕ} {s : List UInt8} (hnewline : 0x0a ∉ s) (hfits : s.length < n)
    (text : List UInt8) : fgets n (s ++ 0x0a :: text) = (s ++ [0x0a], text) := by
  induction s generalizing n with
  | nil =>
    obtain ⟨n, rfl⟩ := Nat.exists_eq_succ_of_ne_zero (Nat.ne_of_gt hfits)
    simp [fgets]
  | cons c s ih =>
    obtain ⟨hc, hs⟩ := List.ne_and_not_mem_of_not_mem_cons hnewline
    rw [List.length_cons] at hfits
    obtain ⟨n, rfl⟩ := Nat.exists_eq_succ_of_ne_zero (Nat.ne_of_gt (Nat.zero_lt_of_lt hfits))
    rw [List.cons_append, fgets, if_neg hc.symm, ih hs (Nat.lt_of_succ_lt_succ hfits)]
    rfl

/-- There is no newline in the permissions. -/
theorem newline_notMem_perm {bits : ℕ} (region : Region bits) : 0x0a ∉ region.perm := by
  unfold Region.perm
  cases region.readable <;> cases region.writable <;> cases region.executable <;>
    cases region.shared <;> decide

/-- One call of `fgets` reads one line. -/
theorem fgets_region {bits : ℕ} (region : Region bits) (text : List UInt8) :
    fgets (bufSize - 1) (region.line ++ text) = (region.line, text) := by
  have hline : region.line =
      (region.text ++ 0x20 :: region.perm ++ 0x20 :: region.rest) ++ [0x0a] := rfl
  rw [hline, List.append_assoc, List.singleton_append]
  apply fgets_line
  · have hbounds := notMem_of_no_space region.no_space (c := 0x0a) rfl
    have hperm := newline_notMem_perm region
    have hrest := region.no_newline
    simp only [List.mem_append, List.mem_cons, not_or]
    exact ⟨⟨hbounds, by decide, hperm⟩, by decide, hrest⟩
  · have hfits := region.fits
    have hperm : region.perm.length = 4 := rfl
    simp only [Bounds.text, List.length_append, List.length_cons, List.length_map, hperm]
    omega

end Scan

end XposedJniTrace.Maps
