import Mathlib.Data.List.Infix

/-!
# Occurrences in a list

Where a pattern occurs first, from a position on, and how many occurrences a scan from the left
meets that goes on behind each. `Replaced` is the replacement of these, piece by piece: what is in
front of the first occurrence is kept, and the scan goes on in what is behind it.
-/

namespace Search

variable {α : Type*}

/-- The pattern occurs at a position, and at none before. -/
structure IsFirst (pattern s : List α) (i : ℕ) : Prop where
  occurs : pattern <+: s.drop i
  before : ∀ j < i, ¬ pattern <+: s.drop j

/-- The occurrences that a scan from the left meets are replaced, so many of them. -/
inductive Replaced (pattern newpat : List α) : List α → List α → ℕ → Prop where
  | done {s : List α} (h : ¬ pattern <:+: s) : Replaced pattern newpat s s 0
  | next {front rest rest' : List α} {n : ℕ}
      (h : IsFirst pattern (front ++ (pattern ++ rest)) front.length)
      (hrest : Replaced pattern newpat rest rest' n) :
      Replaced pattern newpat (front ++ (pattern ++ rest)) (front ++ (newpat ++ rest')) (n + 1)

variable {pattern newpat s front rest : List α} {i : ℕ}

/-- A prefix is the first occurrence. -/
theorem IsFirst.zero (h : pattern <+: s) : IsFirst pattern s 0 :=
  ⟨h, fun _ hj => absurd hj (Nat.not_lt_zero _)⟩

/-- An occurrence that is not at the head is one in the tail. -/
theorem IsFirst.succ_iff {a : α} :
    IsFirst pattern (a :: s) (i + 1) ↔ ¬ pattern <+: a :: s ∧ IsFirst pattern s i := by
  constructor
  · intro h
    exact ⟨h.before 0 (Nat.succ_pos i), h.occurs,
      fun j hj => h.before (j + 1) (Nat.succ_lt_succ hj)⟩
  · intro h
    refine ⟨h.2.occurs, ?_⟩
    intro j hj
    cases j with
    | zero => exact h.1
    | succ j => exact h.2.before j (Nat.lt_of_succ_lt_succ hj)

/-- A list with an occurrence is what is in front of the first one, the pattern and the rest. -/
theorem IsFirst.exists_split (h : IsFirst pattern s i) :
    ∃ front rest, s = front ++ (pattern ++ rest) ∧ front.length = i := by
  obtain ⟨rest, hrest⟩ := h.occurs
  refine ⟨s.take i, rest, ?_, ?_⟩
  · rw [hrest, List.take_append_drop]
  · rw [List.length_take, Nat.min_eq_left]
    by_contra hlong
    have hend : s.drop i = [] := List.drop_eq_nil_of_le (by omega)
    rw [hend, List.append_eq_nil_iff] at hrest
    refine h.before s.length (by omega) ?_
    rw [hrest.1]
    exact List.nil_prefix

/-- No two occurrences that are replaced overlap. -/
theorem Replaced.length_le {s' : List α} {n : ℕ} (h : Replaced pattern newpat s s' n) :
    n * pattern.length ≤ s.length := by
  induction h with
  | done => simp
  | next _ _ ih =>
    rw [List.length_append, List.length_append, Nat.succ_mul]
    omega

variable [DecidableEq α]

/-- Where the pattern occurs first. -/
def first (pattern : List α) : List α → Option ℕ
  | [] => if pattern = [] then some 0 else none
  | a :: s => if pattern <+: a :: s then some 0 else (first pattern s).map (· + 1)

/-- Where the pattern occurs first from a position on, which may be the end. -/
def firstFrom (pattern s : List α) (pos : ℕ) : Option ℕ :=
  if pos ≤ s.length then (first pattern (s.drop pos)).map (pos + ·) else none

/-- The occurrences that a scan from the left meets, when so much is to be passed over first. -/
def occurrencesBehind (pattern : List α) : ℕ → List α → ℕ
  | _, [] => 0
  | skip + 1, _ :: s => occurrencesBehind pattern skip s
  | 0, a :: s =>
    if pattern <+: a :: s then occurrencesBehind pattern (pattern.length - 1) s + 1
    else occurrencesBehind pattern 0 s

/-- The occurrences that a scan from the left meets. -/
def occurrences (pattern s : List α) : ℕ := occurrencesBehind pattern 0 s

/-- The empty pattern is found at the start. -/
theorem first_nil : first [] s = some 0 := by
  cases s with
  | nil => rfl
  | cons a s => exact if_pos List.nil_prefix

/-- Nothing is found exactly when the pattern does not occur. -/
theorem first_eq_none : first pattern s = none ↔ ¬ pattern <:+: s := by
  induction s with
  | nil => simp [first]
  | cons a s ih =>
    rw [first, List.infix_cons_iff, not_or]
    split_ifs with hhead
    · exact iff_of_false nofun fun h => h.1 hhead
    · rw [Option.map_eq_none_iff, ih, and_iff_right hhead]

/-- What is found is the first occurrence. -/
theorem first_eq_some : first pattern s = some i ↔ IsFirst pattern s i := by
  induction s generalizing i with
  | nil =>
    rw [first]
    split_ifs with hempty
    · subst hempty
      rw [Option.some.injEq]
      constructor
      · intro h
        exact h ▸ IsFirst.zero List.nil_prefix
      · intro h
        by_contra hne
        exact h.before 0 (Nat.pos_of_ne_zero (Ne.symm hne)) List.nil_prefix
    · refine iff_of_false (by simp) fun h => hempty ?_
      exact List.prefix_nil.mp (List.drop_nil ▸ h.occurs)
  | cons a s ih =>
    rw [first]
    split_ifs with hhead
    · rw [Option.some.injEq]
      constructor
      · intro h
        exact h ▸ IsFirst.zero hhead
      · intro h
        by_contra hne
        exact h.before 0 (Nat.pos_of_ne_zero (Ne.symm hne)) hhead
    · rw [Option.map_eq_some_iff]
      cases i with
      | zero => exact iff_of_false (fun h => by simp at h) fun h => hhead h.occurs
      | succ i => simp only [Nat.add_right_cancel_iff, exists_eq_right, IsFirst.succ_iff, ih, hhead,
          not_false_eq_true, true_and]

/-- From the end of a list's beginning on, the search is one in what is behind it. -/
theorem firstFrom_append (pattern front rest : List α) :
    firstFrom pattern (front ++ rest) front.length =
      (first pattern rest).map (front.length + ·) := by
  rw [firstFrom, List.length_append, if_pos (Nat.le_add_right _ _), List.drop_left]

/-- Nothing is found in front of the place the search starts from. -/
theorem le_of_firstFrom {pos : ℕ} (h : firstFrom pattern s pos = some i) : pos ≤ i := by
  rw [firstFrom] at h
  split_ifs at h
  obtain ⟨j, -, rfl⟩ := Option.map_eq_some_iff.mp h
  exact Nat.le_add_right pos j

/-- What is skipped does not count. -/
theorem occurrencesBehind_append (pattern skipped s : List α) :
    occurrencesBehind pattern skipped.length (skipped ++ s) = occurrences pattern s := by
  induction skipped with
  | nil => rfl
  | cons a skipped ih => exact ih

/-- A pattern that does not occur has no occurrences. -/
theorem occurrences_eq_zero (h : ¬ pattern <:+: s) : occurrences pattern s = 0 := by
  induction s with
  | nil => rfl
  | cons a s ih =>
    rw [List.infix_cons_iff, not_or] at h
    rw [occurrences, occurrencesBehind, if_neg h.1]
    exact ih h.2

/-- The first occurrence is counted, and the scan goes on behind it. -/
theorem occurrences_of_isFirst (hpattern : pattern ≠ [])
    (h : IsFirst pattern (front ++ (pattern ++ rest)) front.length) :
    occurrences pattern (front ++ (pattern ++ rest)) = occurrences pattern rest + 1 := by
  induction front with
  | nil =>
    cases pattern with
    | nil => exact absurd rfl hpattern
    | cons b tail =>
      have hhere : b :: tail <+: b :: (tail ++ rest) := List.prefix_append (b :: tail) rest
      rw [List.nil_append, List.cons_append, occurrences, occurrencesBehind, if_pos hhere,
        List.length_cons, Nat.add_sub_cancel, occurrencesBehind_append]
  | cons a front ih =>
    rw [List.cons_append] at h ⊢
    obtain ⟨hhead, htail⟩ := IsFirst.succ_iff.mp h
    rw [occurrences, occurrencesBehind, if_neg hhead]
    exact ih htail

/-- As many occurrences are replaced as are counted. -/
theorem Replaced.count_eq {s' : List α} {n : ℕ} (hpattern : pattern ≠ [])
    (h : Replaced pattern newpat s s' n) : n = occurrences pattern s := by
  induction h with
  | done hnone => exact (occurrences_eq_zero hnone).symm
  | next hfirst _ ih => rw [occurrences_of_isFirst hpattern hfirst, ih]

/-- A pattern that is not empty can be replaced everywhere. -/
theorem Replaced.exists (hpattern : pattern ≠ []) (newpat s : List α) :
    ∃ s', Replaced pattern newpat s s' (occurrences pattern s) := by
  induction hlength : s.length using Nat.strongRecOn generalizing s with
  | ind length ih =>
    cases hfirst : first pattern s with
    | none =>
      have hnone := first_eq_none.mp hfirst
      exact ⟨s, by rw [occurrences_eq_zero hnone]; exact .done hnone⟩
    | some i =>
      obtain ⟨front, rest, rfl, rfl⟩ := (first_eq_some.mp hfirst).exists_split
      have hisFirst := first_eq_some.mp hfirst
      have hshorter : rest.length < length := by
        have := List.length_pos_iff.mpr hpattern
        rw [List.length_append, List.length_append] at hlength
        omega
      obtain ⟨rest', hrest⟩ := ih rest.length hshorter rest rfl
      rw [occurrences_of_isFirst hpattern hisFirst]
      exact ⟨front ++ (newpat ++ rest'), .next hisFirst hrest⟩

end Search
