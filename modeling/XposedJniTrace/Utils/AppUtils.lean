import XposedJniTrace.Linker.Maps

/-!
# `getSymbolforAddress` of `utils/appUtils.cpp`

The search of the maps of a process for the mapping of an address. The file can be opened, its text
has no byte 0, and the permissions and the device of a line fit their buffers. The variables that a
line is scanned into keep what they hold where a conversion fails, `mapname` among them.
-/

namespace XposedJniTrace.AppUtils

open Maps (fgets isspace scanHex)

/-- The conversion `%s`: the word behind white space, and what follows. -/
def scanString (text : List UInt8) : Option (List UInt8 × List UInt8) :=
  match (text.dropWhile isspace).takeWhile (!isspace ·) with
  | [] => none
  | c :: word => some (c :: word, (text.dropWhile isspace).dropWhile (!isspace ·))

/-- The character is a decimal digit. -/
def isdigit (c : UInt8) : Bool := 0x30 ≤ c && c ≤ 0x39

/-- What follows the number that the conversion `%ld` reads. -/
def scanDec (text : List UInt8) : Option (List UInt8) :=
  match text.dropWhile isspace with
  | [] => none
  | c :: rest => if isdigit c then some (rest.dropWhile isdigit) else none

/-- The variables that a line is scanned into, but for those that are not looked at. -/
structure Vars where
  begin : ℕ
  endAddr : ℕ
  mapname : List UInt8

/-- `sscanf(line, "%lx-%lx %s %lx %s %ld %s", ...)`: the conversions up to the first that fails
assign their variables. -/
def sscanf (bits : ℕ) (line : List UInt8) (vars : Vars) : Vars :=
  match scanHex bits line with
  | some (first, 0x2d :: text) =>
    match scanHex bits text with
    | some (last, text) =>
      -- perm, foo, dev and inode
      match (scanString text).bind fun perm => (scanHex bits perm.2).bind fun foo =>
        (scanString foo.2).bind fun dev => scanDec dev.2 with
      | some text =>
        match scanString text with
        | some (name, _) => ⟨first, last, name⟩
        | none => ⟨first, last, vars.mapname⟩
      | none => ⟨first, last, vars.mapname⟩
    | none => { vars with begin := first }
  | some (first, _) => { vars with begin := first }
  | none => vars

/-- The loop over the lines of the maps, which `getline` reads one by one. -/
def search (bits address : ℕ) (text : List UInt8) (vars : Vars) : List UInt8 :=
  if _h : text = [] then []
  else
    let vars := sscanf bits (fgets (text.length + 1) text).1 vars
    if address ≥ vars.begin ∧ address ≤ vars.endAddr then vars.mapname
    else search bits address (fgets (text.length + 1) text).2 vars
termination_by text.length
decreasing_by exact Maps.length_fgets _ _h

/-- `getSymbolforAddress`, with what the two numbers hold before they are assigned. -/
def getSymbolforAddress (bits : ℕ) (uninit : ℕ × ℕ) (text : List UInt8)
    (address : ℕ) : List UInt8 :=
  if address = 0 then []
  else search bits address text ⟨uninit.1, uninit.2, []⟩

end XposedJniTrace.AppUtils
