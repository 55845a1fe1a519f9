import Mathlib.Data.Finset.Card
import Mathlib.Data.Nat.Find
import Mathlib.Logic.Function.Iterate

/-!
# How long an orbit can take to hit a target

A deterministic orbit that hits its target for the first time after `k` steps has met `k + 1`
different states, so a bound on the number of states it can meet bounds `k`.
-/

namespace Orbit

variable {α : Type*} {step : α → α} {start : α} {target : α → Prop} {k : ℕ}

/-- Up to its first hit an orbit never meets a state twice. -/
theorem injOn_until_hit (hit : target (step^[k] start))
    (first : ∀ j < k, ¬ target (step^[j] start)) :
    Set.InjOn (fun i => step^[i] start) (Set.Iic k) := by
  -- a repetition would let the orbit hit earlier, by leaving out the loop
  have hne : ∀ i j, i < j → j ≤ k → step^[i] start ≠ step^[j] start := by
    intro i j hij hjk heq
    apply first (k - j + i) (by omega)
    rw [Function.iterate_add_apply, heq, ← Function.iterate_add_apply,
      Nat.sub_add_cancel hjk]
    exact hit
  intro i hi j hj heq
  rcases Nat.lt_trichotomy i j with hlt | rfl | hgt
  · exact absurd heq (hne i j hlt hj)
  · rfl
  · exact absurd heq.symm (hne j i hgt hi)

/-- When the states after each step are named by codes below a bound, the first hit comes
within that many steps. -/
theorem hit_le_of_code {bound : ℕ} (code : ℕ → ℕ) (hit : target (step^[k] start))
    (first : ∀ j < k, ¬ target (step^[j] start)) (hlt : ∀ i < k, code i < bound)
    (hcode : ∀ i < k, ∀ j < k, code i = code j → step^[i + 1] start = step^[j + 1] start) :
    k ≤ bound := by
  have hinj : Set.InjOn code (Finset.range k) := by
    intro i hi j hj heq
    have hi' : i < k := Finset.mem_range.mp hi
    have hj' : j < k := Finset.mem_range.mp hj
    have hstate := hcode i hi' j hj' heq
    have := injOn_until_hit hit first (Set.mem_Iic.mpr hi') (Set.mem_Iic.mpr hj') hstate
    omega
  have hcard := Finset.card_le_card_of_injOn (t := Finset.range bound) code
    (fun i hi => Finset.mem_coe.mpr (Finset.mem_range.mpr (hlt i (Finset.mem_range.mp hi)))) hinj
  simpa using hcard

/-- The number of steps to the first hit of an orbit that hits at all. -/
theorem exists_first_hit (h : ∃ k, target (step^[k] start)) :
    ∃ k, target (step^[k] start) ∧ ∀ j < k, ¬ target (step^[j] start) := by
  classical
  exact ⟨Nat.find h, Nat.find_spec h, fun j hj => Nat.find_min h hj⟩

end Orbit
