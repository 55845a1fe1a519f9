import XposedJniTrace.Library.Loop

/-!
# The first index with a property

A scan of so many indices from a start on finds the first one that has a property, or that there is
none. The relation between the scan and what it finds, its rules for the first index of a scan, and
the loop that counts the indices up.
-/

/-- The first index with a property among so many from a start on, or that there is none. -/
def FirstOf (P : ℕ → Prop) (start count : ℕ) : Option ℕ → Prop
  | some j => start ≤ j ∧ j < start + count ∧ P j ∧ ∀ j', start ≤ j' → j' < j → ¬ P j'
  | none => ∀ j, start ≤ j → j < start + count → ¬ P j

namespace FirstOf

variable {P : ℕ → Prop} {start count : ℕ}

/-- There is no first one of none. -/
theorem empty : FirstOf P start 0 none := by
  intro j hj hlt
  omega

/-- A scan that starts at an index with the property finds it. -/
theorem here (h : P start) : FirstOf P start (count + 1) (some start) :=
  ⟨Nat.le_refl _, by omega, h, fun j' hle hlt => absurd hle (by omega)⟩

/-- A scan passes over an index without the property. -/
theorem later (h : ¬ P start) {found : Option ℕ} (hfound : FirstOf P (start + 1) count found) :
    FirstOf P start (count + 1) found := by
  have hnot {j : ℕ} (hle : start ≤ j) (hrest : start + 1 ≤ j → ¬ P j) : ¬ P j := by
    rcases Nat.eq_or_lt_of_le hle with rfl | hlt
    · exact h
    · exact hrest hlt
  cases found with
  | none => exact fun j hle hlt => hnot hle fun hgt => hfound j hgt (by omega)
  | some j =>
    obtain ⟨hle, hlt, hj, hbefore⟩ := hfound
    exact ⟨by omega, by omega, hj, fun j' hle' hlt' => hnot hle' fun hgt => hbefore j' hgt hlt'⟩

/-- A loop that counts up, leaves at an index with the property and gives up at the last index
returns what belongs to the first index with the property. -/
theorem returns {σ ρ : Type*} {body : σ → σ ⊕ ρ} {state : ℕ → σ} {hit : ℕ → ρ} {miss : ρ}
    {last : ℕ} (hhit : ∀ i ≤ last, P i → body (state i) = .inr (hit i))
    (hnext : ∀ i < last, ¬ P i → body (state i) = .inl (state (i + 1)))
    (hlast : ¬ P last → body (state last) = .inr miss) (hcount : start + count = last) :
    ∃ found, FirstOf P start (count + 1) found ∧
      Loop.Returns body (state start) (found.elim miss hit) := by
  induction count generalizing start with
  | zero =>
    obtain rfl : start = last := hcount
    by_cases h : P start
    · exact ⟨some start, here h, (Loop.returns_of_inr (hhit start (Nat.le_refl _) h)).mpr rfl⟩
    · exact ⟨none, later h empty, (Loop.returns_of_inr (hlast h)).mpr rfl⟩
  | succ count ih =>
    by_cases h : P start
    · exact ⟨some start, here h, (Loop.returns_of_inr (hhit start (by omega) h)).mpr rfl⟩
    · have hrest : start + 1 + count = last := by omega
      obtain ⟨found, hfound, hreturns⟩ := ih hrest
      exact ⟨found, later h hfound, (Loop.returns_of_inl (hnext start (by omega) h)).mpr hreturns⟩

end FirstOf
