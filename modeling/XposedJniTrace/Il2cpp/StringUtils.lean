import Mathlib.Data.List.Infix
import Mathlib.Data.Nat.Notation

/-!
# `utils/stringUtils.cpp`

The comparisons of `StringUtils` that do not tell upper from lower case, with the letters of the
"C" locale. Each asks the same of the strings in lower case, by which they agree.
-/

namespace XposedJniTrace.StringUtils

open scoped List

/-- `tolower` of the C locale. -/
def tolower (c : UInt8) : UInt8 := if 0x41 ≤ c ∧ c ≤ 0x5a then c + 0x20 else c

/-- Two characters are one up to their case. -/
def compare_pred (a b : UInt8) : Bool := tolower a = tolower b

/-- `std::equal` over the first range, and the second from its beginning on. -/
def equal : List UInt8 → List UInt8 → Bool
  | [], _ => true
  | _ :: _, [] => false
  | a :: s, b :: t => compare_pred a b && equal s t

/-- `endsWith` up to case. -/
def endsWith (str suffix : List UInt8) : Bool :=
  if str.length < suffix.length then false
  else
    let tstr := str.drop (str.length - suffix.length)
    if tstr.length = suffix.length then equal suffix tstr else false

/-- `startWith` up to case. -/
def startWith (str suffix : List UInt8) : Bool :=
  if str.length < suffix.length then false
  else
    let tstr := str.take suffix.length
    if tstr.length = suffix.length then equal suffix tstr else false

/-- A string in lower case. -/
def to_lower (str : List UInt8) : List UInt8 := str.map tolower

/-- `find` is not `npos`. -/
def find (str substr : List UInt8) : Bool := substr <:+: str

/-- `containsInsensitive` -/
def containsInsensitive (str substr : List UInt8) : Bool := find (to_lower str) (to_lower substr)

/-- Two strings of one length are equal up to case exactly when they are so in lower case. -/
theorem equal_iff {s t : List UInt8} (h : t.length = s.length) :
    equal s t = true ↔ to_lower s = to_lower t := by
  induction s generalizing t with
  | nil =>
    obtain rfl := List.length_eq_zero_iff.mp h
    exact iff_of_true rfl rfl
  | cons a s ih =>
    cases t with
    | nil => cases h
    | cons b t =>
      rw [equal, Bool.and_eq_true, ih (Nat.succ.inj h), compare_pred, decide_eq_true_iff]
      exact List.cons_eq_cons.symm

/-- A part of a string that is as long as what is looked for, if the string is long enough, is
compared in lower case. -/
theorem equal_part_iff {str suffix part : List UInt8}
    (hpart : suffix.length ≤ str.length → part.length = suffix.length) :
    (if str.length < suffix.length then false
      else if part.length = suffix.length then equal suffix part else false) = true ↔
        suffix.length ≤ str.length ∧ to_lower suffix = to_lower part := by
  split_ifs with hshort hlength
  · exact iff_of_false not_false fun h => absurd h.1 (Nat.not_le_of_lt hshort)
  · rw [equal_iff hlength, and_iff_right (Nat.le_of_not_lt hshort)]
  · exact absurd (hpart (Nat.le_of_not_lt hshort)) hlength

/-- A string keeps its length in lower case. -/
theorem length_to_lower (str : List UInt8) : (to_lower str).length = str.length :=
  List.length_map tolower

/-- The suffix stands at the end, up to case. -/
theorem endsWith_iff (str suffix : List UInt8) :
    endsWith str suffix = true ↔ to_lower suffix <:+ to_lower str := by
  have hdrop : to_lower (str.drop (str.length - suffix.length)) =
      (to_lower str).drop ((to_lower str).length - (to_lower suffix).length) := by
    rw [length_to_lower, length_to_lower, to_lower, to_lower, List.map_drop]
  have hpart : suffix.length ≤ str.length →
      (str.drop (str.length - suffix.length)).length = suffix.length := by
    intro h
    rw [List.length_drop, Nat.sub_sub_self h]
  refine (equal_part_iff hpart).trans ?_
  rw [hdrop, ← List.suffix_iff_eq_drop, and_iff_right_iff_imp]
  intro h
  rw [← length_to_lower suffix, ← length_to_lower str]
  exact h.length_le

/-- The prefix stands at the beginning, up to case. -/
theorem startWith_iff (str suffix : List UInt8) :
    startWith str suffix = true ↔ to_lower suffix <+: to_lower str := by
  have htake : to_lower (str.take suffix.length) =
      (to_lower str).take (to_lower suffix).length := by
    rw [length_to_lower, to_lower, to_lower, List.map_take]
  have hpart : suffix.length ≤ str.length → (str.take suffix.length).length = suffix.length := by
    intro h
    rw [List.length_take, Nat.min_eq_left h]
  refine (equal_part_iff hpart).trans ?_
  rw [htake, ← List.prefix_iff_eq_take, and_iff_right_iff_imp]
  intro h
  rw [← length_to_lower suffix, ← length_to_lower str]
  exact h.length_le

/-- A string contains another up to case exactly when it does so in lower case. -/
theorem containsInsensitive_iff (str substr : List UInt8) :
    containsInsensitive str substr = true ↔ to_lower substr <:+: to_lower str :=
  decide_eq_true_iff

/-- What is asked of the two parts of a string, up to case, is what is asked of the parts of the
string in lower case. -/
theorem exists_split_iff (P : List UInt8 → List UInt8 → Prop) (str : List UInt8) :
    (∃ a b, str = a ++ b ∧ P (to_lower a) (to_lower b)) ↔ ∃ a b, to_lower str = a ++ b ∧ P a b := by
  constructor
  · intro h
    obtain ⟨a, b, rfl, hP⟩ := h
    exact ⟨to_lower a, to_lower b, List.map_append, hP⟩
  · intro h
    obtain ⟨a, b, hsplit, hP⟩ := h
    obtain ⟨a, b, rfl, rfl, rfl⟩ := List.map_eq_append_iff.mp hsplit
    exact ⟨a, b, rfl, hP⟩

/-- The matchers agree: a string contains what one of its ends starts with, and what one of its
beginnings ends with, and the end of a string is the start of the reversed one. -/
structure MatchersAgree (s p : List UInt8) : Prop where
  starts : containsInsensitive s p = true ↔ ∃ a b, s = a ++ b ∧ startWith b p = true
  ends : containsInsensitive s p = true ↔ ∃ a b, s = a ++ b ∧ endsWith a p = true
  reversed : endsWith s p = true ↔ startWith s.reverse p.reverse = true

/-- The matchers agree with each other on every pair. -/
theorem matchers_agree (s p : List UInt8) : MatchersAgree s p where
  starts := by
    simp only [containsInsensitive_iff, startWith_iff]
    rw [exists_split_iff fun _ b => to_lower p <+: b, List.infix_iff_prefix_suffix]
    constructor
    · intro h
      obtain ⟨b, hprefix, a, hsplit⟩ := h
      exact ⟨a, b, hsplit.symm, hprefix⟩
    · intro h
      obtain ⟨a, b, hsplit, hprefix⟩ := h
      exact ⟨b, hprefix, a, hsplit.symm⟩
  ends := by
    simp only [containsInsensitive_iff, endsWith_iff]
    rw [exists_split_iff fun a _ => to_lower p <:+ a, List.infix_iff_suffix_prefix]
    constructor
    · intro h
      obtain ⟨a, hsuffix, b, hsplit⟩ := h
      exact ⟨a, b, hsplit.symm, hsuffix⟩
    · intro h
      obtain ⟨a, b, hsplit, hsuffix⟩ := h
      exact ⟨a, hsuffix, b, hsplit.symm⟩
  reversed := by
    rw [endsWith_iff, startWith_iff, to_lower, to_lower, to_lower, to_lower, List.map_reverse,
      List.map_reverse, List.reverse_prefix]

end XposedJniTrace.StringUtils
