import Mathlib.Data.List.Basic

/-!
# Runs of a step function

Runs as folds of a total step over a list of inputs, what holds along them, and the rule that
turns an exact condition for one step into an exact condition for a run: when a step keeps the
invariant exactly if it is clean, the invariant holds in every state of a run exactly if every
step is clean where it is taken.
-/

namespace Runs

variable {σ ι : Type*} (step : σ → ι → σ)

/-- Every step of a run satisfies the condition, in the state in which it is taken. -/
def AllSteps (P : σ → ι → Prop) : σ → List ι → Prop
  | _, [] => True
  | s, i :: rest => P s i ∧ AllSteps P (step s i) rest

variable {step} {P : σ → ι → Prop} {I : σ → Prop}

/-- What every input of a run keeps holds at its end. -/
theorem foldl_invariant {l : List ι} (hstep : ∀ s, ∀ i ∈ l, I s → I (step s i)) {s : σ}
    (hs : I s) : I (l.foldl step s) := by
  induction l generalizing s with
  | nil => exact hs
  | cons i rest ih =>
    rw [List.foldl_cons]
    apply ih
    · intro t j hj
      exact hstep t j (List.mem_cons_of_mem i hj)
    · exact hstep s i List.mem_cons_self hs

/-- What a clean step keeps holds behind a run of clean steps. -/
theorem AllSteps.foldl (hstep : ∀ s i, I s → P s i → I (step s i)) {s : σ} (hs : I s) {l : List ι}
    (h : AllSteps step P s l) : I (l.foldl step s) := by
  induction l generalizing s with
  | nil => exact hs
  | cons i rest ih => exact ih (hstep s i hs h.1) h.2

/-- What holds at every step of a run holds at those of its parts. -/
theorem allSteps_append {s : σ} {before after : List ι} :
    AllSteps step P s (before ++ after) ↔
      AllSteps step P s before ∧ AllSteps step P (before.foldl step s) after := by
  induction before generalizing s with
  | nil => exact (and_iff_right trivial).symm
  | cons i before ih =>
    rw [List.cons_append, AllSteps, AllSteps, ih, and_assoc]
    rfl

/-- A property of every state of a run is one of the first state and of every state of the rest. -/
theorem forall_take_cons {s : σ} {i : ι} {rest : List ι} :
    (∀ n, I (((i :: rest).take n).foldl step s)) ↔
      I s ∧ ∀ n, I ((rest.take n).foldl step (step s i)) := by
  constructor
  · intro h
    exact ⟨h 0, fun n => h (n + 1)⟩
  · intro h n
    cases n with
    | zero => exact h.1
    | succ n => exact h.2 n

/-- When a step keeps the invariant exactly if it is clean, every state of a run satisfies it
exactly if every step is clean. -/
theorem forall_take_iff_allSteps (hstep : ∀ s i, I s → (I (step s i) ↔ P s i)) {s : σ} (hs : I s)
    (l : List ι) : (∀ n, I ((l.take n).foldl step s)) ↔ AllSteps step P s l := by
  induction l generalizing s with
  | nil =>
    simp only [List.take_nil, List.foldl_nil, AllSteps]
    exact iff_of_true (fun _ => hs) trivial
  | cons i rest ih =>
    rw [forall_take_cons, AllSteps, ← hstep s i hs]
    constructor
    · intro h
      have hnext : I (step s i) := h.2 0
      exact ⟨hnext, (ih hnext).mp h.2⟩
    · intro h
      exact ⟨hs, (ih h.1).mpr h.2⟩

end Runs
