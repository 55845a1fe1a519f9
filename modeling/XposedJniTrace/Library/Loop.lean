import Mathlib.Logic.Relation
import Mathlib.Order.Basic

/-!
# Loops that need not terminate

A loop is given by its body alone: from a state, one iteration either goes round again in
a new state or leaves the loop with a result. The budgeted run is executable; a loop
returns when some budget is enough. Larger budgets never change a result, so the result of
a loop is unique, and termination is a statement about the body and not about a budget.
-/

namespace Loop

variable {σ ρ : Type*}

/-- Run at most the given number of iterations, failing when the budget is used up. -/
def run (body : σ → σ ⊕ ρ) : ℕ → σ → Option ρ
  | 0, _ => none
  | n + 1, s =>
    match body s with
    | .inl next => run body n next
    | .inr result => some result

/-- The loop leaves with this result after finitely many iterations. -/
def Returns (body : σ → σ ⊕ ρ) (s : σ) (result : ρ) : Prop :=
  ∃ n, run body n s = some result

/-- The loop leaves after finitely many iterations. -/
def Terminates (body : σ → σ ⊕ ρ) (s : σ) : Prop :=
  ∃ result, Returns body s result

/-- One iteration that goes round again. -/
def Steps (body : σ → σ ⊕ ρ) (s next : σ) : Prop :=
  body s = .inl next

variable {body : σ → σ ⊕ ρ} {s next : σ} {result : ρ}

/-- A step that goes on is one step of the run. -/
theorem run_of_inl (h : body s = .inl next) (n : ℕ) :
    run body (n + 1) s = run body n next := by
  simp only [run, h]

/-- A step that ends ends the run. -/
theorem run_of_inr (h : body s = .inr result) (n : ℕ) :
    run body (n + 1) s = some result := by
  simp only [run, h]

/-- A result found within a budget is found within every larger one. -/
theorem run_mono {n m : ℕ} (h : run body n s = some result) (hnm : n ≤ m) :
    run body m s = some result := by
  induction n generalizing m s with
  | zero => simp [run] at h
  | succ n ih =>
    obtain ⟨m, rfl⟩ : ∃ k, m = k + 1 := ⟨m - 1, by omega⟩
    cases hb : body s with
    | inl t =>
      rw [run_of_inl hb] at h ⊢
      exact ih h (by omega)
    | inr r =>
      rw [run_of_inr hb] at h ⊢
      exact h

/-- The result of a loop does not depend on the budget that found it. -/
theorem Returns.unique {first second : ρ} (h₁ : Returns body s first)
    (h₂ : Returns body s second) : first = second := by
  obtain ⟨n, hn⟩ := h₁
  obtain ⟨m, hm⟩ := h₂
  have hn' := run_mono hn (Nat.le_max_left n m)
  have hm' := run_mono hm (Nat.le_max_right n m)
  exact Option.some.inj (hn'.symm.trans hm')

/-- Going round once does not change what the loop returns. -/
theorem returns_of_inl (h : body s = .inl next) :
    Returns body s result ↔ Returns body next result := by
  constructor
  · intro hreturns
    obtain ⟨n, hn⟩ := hreturns
    cases n with
    | zero => simp [run] at hn
    | succ n => exact ⟨n, by rwa [run_of_inl h] at hn⟩
  · intro hreturns
    obtain ⟨n, hn⟩ := hreturns
    exact ⟨n + 1, by rwa [run_of_inl h]⟩

/-- Leaving the loop fixes its result. -/
theorem returns_of_inr {other : ρ} (h : body s = .inr result) :
    Returns body s other ↔ other = result := by
  constructor
  · intro hreturns
    obtain ⟨n, hn⟩ := hreturns
    cases n with
    | zero => simp [run] at hn
    | succ n =>
      rw [run_of_inr h] at hn
      exact (Option.some.inj hn).symm
  · intro hother
    subst hother
    exact ⟨1, run_of_inr h 0⟩

/-- A loop ends exactly when it does so behind a step that goes on. -/
theorem terminates_of_inl (h : body s = .inl next) :
    Terminates body s ↔ Terminates body next := by
  simp only [Terminates, returns_of_inl h]

/-- A loop whose body ends ends. -/
theorem terminates_of_inr (h : body s = .inr result) : Terminates body s :=
  ⟨result, (returns_of_inr h).mpr rfl⟩

/-- A loop returns exactly when its iterations reach a state whose body leaves. -/
theorem returns_iff_reaches :
    Returns body s result ↔
      ∃ last, Relation.ReflTransGen (Steps body) s last ∧ body last = .inr result := by
  constructor
  · intro hreturns
    obtain ⟨n, hn⟩ := hreturns
    induction n generalizing s with
    | zero => simp [run] at hn
    | succ n ih =>
      cases hb : body s with
      | inl t =>
        rw [run_of_inl hb] at hn
        obtain ⟨last, hreach, hlast⟩ := ih hn
        exact ⟨last, .head hb hreach, hlast⟩
      | inr r =>
        rw [run_of_inr hb] at hn
        exact ⟨s, .refl, by rw [hb, Option.some.inj hn]⟩
  · intro hreaches
    obtain ⟨last, hreach, hlast⟩ := hreaches
    induction hreach using Relation.ReflTransGen.head_induction_on with
    | refl => exact (returns_of_inr hlast).mpr rfl
    | head hstep _ ih => exact (returns_of_inl hstep).mpr ih

/-- What holds at the start and is kept by every iteration holds where the loop leaves. -/
theorem Returns.invariant {I : σ → Prop} (hstart : I s)
    (hstep : ∀ t u, I t → body t = .inl u → I u) (h : Returns body s result) :
    ∃ last, I last ∧ body last = .inr result := by
  obtain ⟨last, hreach, hlast⟩ := returns_iff_reaches.mp h
  refine ⟨last, ?_, hlast⟩
  clear h hlast
  induction hreach with
  | refl => exact hstart
  | tail _ hone ih => exact hstep _ _ ih hone

/-- A variant that every iteration decreases under an invariant makes the loop terminate. -/
theorem terminates_of_variant (I : σ → Prop) (variant : σ → ℕ)
    (hstep : ∀ t u, I t → body t = .inl u → I u ∧ variant u < variant t) (hstart : I s) :
    Terminates body s := by
  induction hv : variant s using Nat.strongRecOn generalizing s with
  | ind v ih =>
    cases hb : body s with
    | inl t =>
      obtain ⟨hI, hlt⟩ := hstep s t hstart hb
      rw [terminates_of_inl hb]
      exact ih (variant t) (hv ▸ hlt) hI rfl
    | inr r => exact terminates_of_inr hb

end Loop
