import Mathlib.Data.List.Infix
import Mathlib.Data.List.TakeWhile

/-!
# The string functions of `mylibc.h`

C strings are the lists of their bytes in front of the terminator, so that reading at the end of
the list reads the terminator, and pointers into a string are its suffixes. A `CString` carries
the fact that no byte of it is the terminator.
-/

namespace XposedJniTrace.Mylibc

/-- A C string: none of its bytes is the terminator. -/
structure CString where
  bytes : List UInt8
  nonzero : 0 ∉ bytes
  deriving DecidableEq

/-- The bytes of a `std::string` up to its first terminator, as `c_str` is read. -/
def c_str (s : List UInt8) : CString where
  bytes := s.takeWhile (· ≠ 0)
  nonzero h := by
    have := List.mem_takeWhile_imp h
    exact absurd this (by decide)

/-- The bytes of a text in the basic character set. -/
def ascii (text : String) : List UInt8 := text.toList.map fun c => UInt8.ofNat c.toNat

/-- The byte that a pointer into a string leads to. -/
def char (s : List UInt8) : UInt8 := s.headD 0

/-- The length of a string. -/
def my_strlen : List UInt8 → ℕ
  | [] => 0
  | _ :: s => my_strlen s + 1

/-- The two strings compared, up to `n` bytes of them. -/
def my_strncmp : List UInt8 → List UInt8 → ℕ → ℤ
  | _, _, 0 => 0
  | s1, s2, n + 1 =>
    if char s1 ≠ char s2 then (char s1).toNat - (char s2).toNat
    else if char s1 = 0 then 0
    else my_strncmp s1.tail s2.tail n

/-- The two strings compared. -/
def my_strcmp : List UInt8 → List UInt8 → ℤ
  | [], s2 => if char s2 = 0 then 0 else 0 - (char s2).toNat
  | c :: s1, s2 =>
    if c = char s2 then
      if c = 0 then 0 else my_strcmp s1 s2.tail
    else c.toNat - (char s2).toNat

/-- The two loops of `my_strstr`, behind the first byte `c` of the string that it looks for. -/
def my_strstr.loop (c : UInt8) (find : List UInt8) (len : ℕ) : List UInt8 → Option (List UInt8)
  | [] => none
  | sc :: s =>
    if sc ≠ c then loop c find len s
    else if my_strncmp s find len ≠ 0 then loop c find len s
    else some (sc :: s)

/-- The suffix where the string begins that is looked for; null when there is none. -/
def my_strstr (s find : List UInt8) : Option (List UInt8) :=
  match find with
  | [] => some s
  | c :: find => my_strstr.loop c find (my_strlen find) s

/-- `my_strlen` counts the bytes in front of the terminator. -/
theorem my_strlen_eq (s : List UInt8) : my_strlen s = s.length := by
  induction s with
  | nil => rfl
  | cons c s ih => rw [my_strlen, ih, List.length_cons]

/-- Two bytes differ exactly when their difference is not zero. -/
theorem toNat_sub_eq_zero {a b : UInt8} : ((a.toNat : ℤ) - b.toNat = 0) ↔ a = b := by
  rw [← UInt8.toNat_inj]
  omega

/-- The first bytes differ: `my_strncmp` answers their difference, which is not zero. -/
theorem my_strncmp_of_ne {s1 s2 : List UInt8} {n : ℕ} (h : char s1 ≠ char s2) :
    my_strncmp s1 s2 (n + 1) ≠ 0 := by
  rw [my_strncmp, if_pos h]
  exact fun hzero => h (toNat_sub_eq_zero.mp hzero)

/-- Over the length of its second string, `my_strncmp` answers zero exactly for a prefix. -/
theorem my_strncmp_eq_zero {find : List UInt8} (hfind : 0 ∉ find) (s : List UInt8) :
    my_strncmp s find find.length = 0 ↔ find <+: s := by
  induction find generalizing s with
  | nil => exact iff_of_true rfl List.nil_prefix
  | cons b find ih =>
    obtain ⟨hb, hrest⟩ := List.ne_and_not_mem_of_not_mem_cons hfind
    cases s with
    | nil =>
      -- the string has ended where the other one goes on
      have hdiffer : char [] ≠ char (b :: find) := hb
      exact iff_of_false (my_strncmp_of_ne hdiffer) fun h =>
        List.cons_ne_nil b find (List.prefix_nil.mp h)
    | cons a s =>
      rw [List.cons_prefix_cons]
      by_cases hab : b = a
      · subst hab
        have hself : ¬ char (b :: s) ≠ char (b :: find) := not_not_intro rfl
        have hchar : char (b :: s) ≠ 0 := hb.symm
        rw [List.length_cons, my_strncmp, if_neg hself, if_neg hchar]
        exact (ih hrest s).trans (and_iff_right rfl).symm
      · have hdiffer : char (a :: s) ≠ char (b :: find) := fun h => hab h.symm
        exact iff_of_false (my_strncmp_of_ne hdiffer) fun h => hab h.1

/-- `my_strcmp` answers zero exactly for equal strings. -/
theorem my_strcmp_eq_zero (s1 s2 : CString) :
    my_strcmp s1.bytes s2.bytes = 0 ↔ s1.bytes = s2.bytes := by
  obtain ⟨s1, h1⟩ := s1
  obtain ⟨s2, h2⟩ := s2
  change my_strcmp s1 s2 = 0 ↔ s1 = s2
  induction s1 generalizing s2 with
  | nil =>
    cases s2 with
    | nil => exact iff_of_true rfl rfl
    | cons b s2 =>
      obtain ⟨hb, -⟩ := List.ne_and_not_mem_of_not_mem_cons h2
      have hb' : ¬ char (b :: s2) = 0 := hb.symm
      rw [my_strcmp, if_neg hb']
      exact iff_of_false (fun h => hb (toNat_sub_eq_zero.mp h)) nofun
  | cons a s1 ih =>
    obtain ⟨ha, hs1⟩ := List.ne_and_not_mem_of_not_mem_cons h1
    rw [my_strcmp]
    cases s2 with
    | nil =>
      have ha' : ¬ a = char [] := ha.symm
      rw [if_neg ha']
      exact iff_of_false (fun h => ha' (toNat_sub_eq_zero.mp h)) nofun
    | cons b s2 =>
      obtain ⟨-, hs2⟩ := List.ne_and_not_mem_of_not_mem_cons h2
      change (if a = b then _ else _) = (0 : ℤ) ↔ _
      rw [List.cons.injEq]
      split_ifs with hab hzero
      · exact absurd hzero.symm ha
      · exact (ih hs1 s2 hs2).trans (and_iff_right hab).symm
      · exact iff_of_false (fun h => hab (toNat_sub_eq_zero.mp h)) (fun h => hab h.1)

/-- `my_strstr` finds a string exactly where it occurs. -/
theorem my_strstr_isSome (s : List UInt8) (find : CString) :
    (my_strstr s find.bytes).isSome ↔ find.bytes <:+: s := by
  obtain ⟨find, hfind⟩ := find
  cases find with
  | nil => exact iff_of_true rfl List.nil_infix
  | cons c find =>
    obtain ⟨-, hfind⟩ := List.ne_and_not_mem_of_not_mem_cons hfind
    change (my_strstr.loop c find (my_strlen find) s).isSome ↔ c :: find <:+: s
    rw [my_strlen_eq]
    induction s with
    | nil => 
      refine iff_of_false nofun ?_
      intro h
      exact List.cons_ne_nil c find (List.infix_nil.mp h)
    | cons sc s ih =>
      rw [my_strstr.loop, List.infix_cons_iff, List.cons_prefix_cons, ← ih,
        ← my_strncmp_eq_zero hfind s]
      split_ifs with hne hcmp
      · exact (or_iff_right (fun h => hne h.1.symm)).symm
      · exact (or_iff_right (fun h => hcmp h.2)).symm
      · exact iff_of_true rfl (.inl ⟨(not_not.mp hne).symm, not_not.mp hcmp⟩)

end XposedJniTrace.Mylibc
