import Mathlib.Data.List.TakeWhile
import XposedJniTrace.Linker.Maps

/-!
# `get_addr` of `linker/Symbol.cpp`

The search of `/proc/self/maps` for the base of a module: `fgets` into a buffer of `BUFSIZ` bytes,
six calls of `strtok` that cut what is read at blanks, and `strtoul` of the first word when the
sixth is the name. The file can be opened; the text has no byte 0.
-/

namespace XposedJniTrace.GetAddr

open Maps (fgets isspace hexValue hexDigits)

/-- The size of the buffer, as bionic has it. -/
def BUFSIZ : ℕ := 1024

/-- A call of `strtok` with the delimiter " " on what it is given or has kept from the last call:
the token, and what it keeps. -/
def strtok : Option (List UInt8) → Option (List UInt8) × Option (List UInt8)
  | none => (none, none)
  | some s =>
    match s.dropWhile (· = 0x20) with
    | [] => (none, none)
    | c :: rest =>
      (some ((c :: rest).takeWhile (· ≠ 0x20)),
        match (c :: rest).dropWhile (· ≠ 0x20) with
        | [] => none
        | _ :: behind => some behind)

/-- The token of a later call. -/
def tok : ℕ → Option (List UInt8) → Option (List UInt8)
  | 0, s => (strtok s).1
  | i + 1, s => tok i (strtok s).2

/-- Whether the number has a minus in front, and what is behind its sign. -/
def sign : List UInt8 → Bool × List UInt8
  | [] => (false, [])
  | c :: s => if c = 0x2d then (true, s) else if c = 0x2b then (false, s) else (false, c :: s)

/-- Past the letters 0x in front of a hexadecimal number. -/
def pastRadix : List UInt8 → List UInt8
  | c :: d :: s => if c = 0x30 ∧ (d = 0x78 ∨ d = 0x58) then s else c :: d :: s
  | s => s

/-- `strtoul` with the base 16, on 64 bits. -/
def strtoul (s : List UInt8) : ℕ :=
  let (negative, s) := sign (s.dropWhile isspace)
  let value := (hexDigits 0 (pastRadix s)).1
  if 2 ^ 64 ≤ value then 2 ^ 64 - 1
  else if negative then (2 ^ 64 - value) % 2 ^ 64
  else value

/-- The newline at the end of what is read is overwritten. -/
def chomp (buf : List UInt8) : List UInt8 :=
  if buf.getLast? = some 0x0a then buf.dropLast else buf

/-- What the words of a buffer without its newline give: the number in front when the sixth word is
the name. -/
def look (name buf : List UInt8) : Option ℕ :=
  match tok 5 (some buf) with
  | none => none
  | some path => if path = name then some (strtoul ((tok 0 (some buf)).getD [])) else none

/-- `get_addr` over the text of the maps. -/
def get_addr (name : List UInt8) (text : List UInt8) : ℕ :=
  if _h : text = [] then 0
  else
    match look name (chomp (fgets (BUFSIZ - 1) text).1) with
    | some r => r
    | none => get_addr name (fgets (BUFSIZ - 1) text).2
termination_by text.length
decreasing_by exact Maps.length_fgets _ _h

section Words

/-- A word up to the next blank is a token. -/
theorem strtok_word {word : List UInt8} (hsome : word ≠ []) (hword : 0x20 ∉ word)
    (rest : List UInt8) :
    strtok (some (word ++ 0x20 :: rest)) = (some word, some rest) := by
  cases word with
  | nil => exact absurd rfl hsome
  | cons c word =>
    obtain ⟨hc, hlater⟩ := List.ne_and_not_mem_of_not_mem_cons hword
    have hdrop : ((c :: word) ++ 0x20 :: rest).dropWhile (· = 0x20) = c :: (word ++ 0x20 :: rest) :=
      List.dropWhile_cons_of_neg (by simpa using hc.symm)
    have htoken : ∀ d ∈ c :: word, decide (d ≠ 0x20) = true := by
      intro d hd
      exact decide_eq_true (ne_of_mem_of_not_mem hd hword)
    have htake : ((c :: word) ++ 0x20 :: rest).takeWhile (· ≠ 0x20) = c :: word := by
      rw [List.takeWhile_append_of_pos htoken, List.takeWhile_cons_of_neg (by simp),
        List.append_nil]
    have hkept : ((c :: word) ++ 0x20 :: rest).dropWhile (· ≠ 0x20) = 0x20 :: rest := by
      rw [List.dropWhile_append_of_pos htoken, List.dropWhile_cons_of_neg (by simp)]
    rw [List.cons_append] at htake hkept
    simp only [strtok, hdrop, htake, hkept]

/-- A last word is a token, and nothing is kept. -/
theorem strtok_last {word : List UInt8} (hsome : word ≠ []) (hword : 0x20 ∉ word) :
    strtok (some word) = (some word, none) := by
  cases word with
  | nil => exact absurd rfl hsome
  | cons c word =>
    obtain ⟨hc, hlater⟩ := List.ne_and_not_mem_of_not_mem_cons hword
    have hdrop : (c :: word).dropWhile (· = 0x20) = c :: word :=
      List.dropWhile_cons_of_neg (by simpa using hc.symm)
    have htoken : ∀ d ∈ c :: word, decide (d ≠ 0x20) = true := by
      intro d hd
      exact decide_eq_true (ne_of_mem_of_not_mem hd hword)
    have htake : (c :: word).takeWhile (· ≠ 0x20) = c :: word :=
      List.takeWhile_eq_self_iff.mpr htoken
    have hkept : (c :: word).dropWhile (· ≠ 0x20) = [] := List.dropWhile_eq_nil_iff.mpr htoken
    simp only [strtok, hdrop, htake, hkept]

/-- Blanks in front are passed over. -/
theorem strtok_blanks (n : ℕ) (s : List UInt8) :
    strtok (some (List.replicate n 0x20 ++ s)) = strtok (some s) := by
  have hdrop : (List.replicate n 0x20 ++ s).dropWhile (· = 0x20) = s.dropWhile (· = 0x20) :=
    List.dropWhile_append_of_pos fun c hc => decide_eq_true (List.eq_of_mem_replicate hc)
  simp only [strtok, hdrop]

/-- There is no token where nothing is kept. -/
theorem tok_none (i : ℕ) : tok i none = none := by
  induction i with
  | zero => rfl
  | succ i ih => exact ih

/-- One word has no second token. -/
theorem tok_succ_last {word : List UInt8} (hword : 0x20 ∉ word) (i : ℕ) :
    tok (i + 1) (some word) = none := by
  by_cases hsome : word = []
  · subst hsome
    exact tok_none i
  · rw [tok, strtok_last hsome hword]
    exact tok_none i

end Words

end XposedJniTrace.GetAddr
