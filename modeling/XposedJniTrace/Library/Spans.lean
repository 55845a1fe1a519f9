import Mathlib.Data.List.Basic

/-!
# Spans of addresses

A span is so many addresses from a first one on. Two spans are apart when one ends before the other
begins, and what lies within spans that are apart is apart.
-/

/-- A stretch of memory. -/
structure Span where
  start : ℕ
  size : ℕ
  deriving DecidableEq

namespace Span

/-- The first address behind the span. -/
def stop (s : Span) : ℕ := s.start + s.size

/-- Two spans have no byte in common. -/
def Apart (s t : Span) : Prop := s.stop ≤ t.start ∨ t.stop ≤ s.start

/-- A span lies in another. -/
def Within (s t : Span) : Prop := t.start ≤ s.start ∧ s.stop ≤ t.stop

/-- An address of the span. -/
def Has (s : Span) (a : ℕ) : Prop := s.start ≤ a ∧ a < s.stop

variable {s t u s' t' : Span} {a : ℕ}

/-- Spans are apart from each other. -/
theorem Apart.symm (h : s.Apart t) : t.Apart s := Or.symm h

/-- A span lies in itself. -/
theorem Within.refl : s.Within s := ⟨Nat.le_refl _, Nat.le_refl _⟩

/-- A span in a span in a span lies in it. -/
theorem Within.trans (h : s.Within t) (h' : t.Within u) : s.Within u :=
  ⟨Nat.le_trans h'.1 h.1, Nat.le_trans h.2 h'.2⟩

/-- An address of a span is one of a span around it. -/
theorem Within.has (h : s.Within t) (ha : s.Has a) : t.Has a :=
  ⟨Nat.le_trans h.1 ha.1, Nat.lt_of_lt_of_le ha.2 h.2⟩

/-- Parts of spans that are apart are apart. -/
theorem Apart.mono (h : s.Apart t) (hs : s'.Within s) (ht : t'.Within t) : s'.Apart t' := by
  cases h with
  | inl h => exact .inl (Nat.le_trans hs.2 (Nat.le_trans h ht.1))
  | inr h => exact .inr (Nat.le_trans ht.2 (Nat.le_trans h hs.1))

/-- An address of a span is none of one apart from it. -/
theorem Apart.not_has (h : s.Apart t) (ha : s.Has a) : ¬ t.Has a := by
  rintro ⟨hlow, hhigh⟩
  cases h with
  | inl h => exact absurd ha.2 (Nat.not_lt.mpr (Nat.le_trans h hlow))
  | inr h => exact absurd hhigh (Nat.not_lt.mpr (Nat.le_trans h ha.1))

/-- Spans without a common address are apart, unless one is empty. -/
theorem apart_of_not_has (hs : 0 < s.size) (ht : 0 < t.size)
    (h : ∀ a, s.Has a → ¬ t.Has a) : s.Apart t := by
  by_contra hnot
  simp only [Apart, stop, not_or, Nat.not_le] at hnot
  by_cases hle : s.start ≤ t.start
  · exact h t.start ⟨hle, hnot.1⟩ ⟨Nat.le_refl _, Nat.lt_add_of_pos_right ht⟩
  · exact h s.start ⟨Nat.le_refl _, Nat.lt_add_of_pos_right hs⟩ ⟨Nat.le_of_not_le hle, hnot.2⟩

end Span
