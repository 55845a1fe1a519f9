import Mathlib.Data.List.Infix

/-!
# Delivery until a stop

A list of items is delivered to a receiver that answers each one, by all that it was given before,
with whether to go on. The delivery until the first stop, the property that says so of a list of
calls without naming the recursion, and what a delivery does with a list that comes in two parts.
-/

namespace Delivery

open scoped List

variable {α : Type*} (go : List α → α → Bool)

/-- The calls after a list is delivered behind earlier calls, and whether to go on. -/
def deliver : List α → List α → List α × Bool
  | calls, [] => (calls, true)
  | calls, a :: rest =>
    if go calls a then deliver (calls ++ [a]) rest else (calls ++ [a], false)

/-- What is called behind some earlier calls: a first part of the items, in order, that ends with
the first call that is answered with a stop, and is all of them when there is none. -/
structure UntilStop (before items calls : List α) : Prop where
  in_order : calls <+: items
  last : ∀ first a rest, calls = first ++ a :: rest → go (before ++ first) a = false → rest = []
  all_or_stopped : calls = items ∨
    ∃ first a, calls = first ++ [a] ∧ go (before ++ first) a = false

variable {go}

/-- No call is delivered when there is none. -/
theorem deliver_nil (calls : List α) : deliver go calls [] = (calls, true) := rfl

/-- A delivery adds to the calls. -/
theorem prefix_deliver (go : List α → α → Bool) (calls items : List α) :
    calls <+: (deliver go calls items).1 := by
  induction items generalizing calls with
  | nil => exact List.prefix_rfl
  | cons a rest ih =>
    rw [deliver]
    split_ifs
    · exact (List.prefix_append calls [a]).trans (ih _)
    · exact List.prefix_append calls [a]

/-- What is added to the calls is a first part of the items. -/
theorem deliver_prefix_append (go : List α → α → Bool) (calls items : List α) :
    (deliver go calls items).1 <+: calls ++ items := by
  induction items generalizing calls with
  | nil => rw [deliver, List.append_nil]
  | cons a rest ih =>
    have hcons : calls ++ a :: rest = (calls ++ [a]) ++ rest := by simp
    rw [deliver, hcons]
    split_ifs
    · exact ih _
    · exact List.prefix_append _ rest

/-- The first item is always called. -/
theorem prefix_deliver_cons (go : List α → α → Bool) (calls : List α) (a : α) (rest : List α) :
    calls ++ [a] <+: (deliver go calls (a :: rest)).1 := by
  rw [deliver]
  split_ifs
  · exact prefix_deliver go _ _
  · exact List.prefix_rfl

/-- Nothing is called only when there is nothing to deliver. -/
theorem deliver_eq_self_iff {calls items : List α} :
    (deliver go calls items).1 = calls ↔ items = [] := by
  constructor
  · intro h
    cases items with
    | nil => rfl
    | cons a rest =>
      have hcalled := prefix_deliver_cons go calls a rest
      rw [h] at hcalled
      have hlength := hcalled.length_le
      rw [List.length_append, List.length_singleton] at hlength
      omega
  · intro h
    rw [h, deliver]

/-- The two parts of a list are delivered one after the other. -/
theorem deliver_append (calls first second : List α) :
    deliver go calls (first ++ second) =
      if (deliver go calls first).2 then deliver go (deliver go calls first).1 second
      else deliver go calls first := by
  induction first generalizing calls with
  | nil => rfl
  | cons a first ih =>
    rw [List.cons_append, deliver, deliver]
    cases go calls a with
    | true => exact ih _
    | false => rfl

/-- A delivery that goes on has called everything. -/
theorem deliver_of_goes_on {calls items : List α} (h : (deliver go calls items).2 = true) :
    (deliver go calls items).1 = calls ++ items := by
  induction items generalizing calls with
  | nil => exact (List.append_nil calls).symm
  | cons a rest ih =>
    rw [deliver] at h ⊢
    split_ifs at h ⊢
    rw [ih h, List.append_assoc, List.singleton_append]

/-- A delivery stops at an item that is answered with a stop. -/
theorem deliver_stops_iff {calls items : List α} :
    (deliver go calls items).2 = false ↔
      ∃ first a rest, items = first ++ a :: rest ∧ go (calls ++ first) a = false := by
  induction items generalizing calls with
  | nil =>
    refine iff_of_false (by simp [deliver_nil]) ?_
    intro h
    obtain ⟨first, a, rest, hsplit, -⟩ := h
    simp at hsplit
  | cons a rest ih =>
    rw [deliver]
    constructor
    · intro h
      split_ifs at h with hgo
      · obtain ⟨first, b, post, rfl, hstop⟩ := ih.mp h
        refine ⟨a :: first, b, post, rfl, ?_⟩
        rwa [List.append_assoc] at hstop
      · refine ⟨[], a, rest, rfl, ?_⟩
        rw [List.append_nil]
        exact eq_false_of_ne_true hgo
    · intro h
      obtain ⟨first, b, post, hsplit, hstop⟩ := h
      split_ifs with hgo
      · cases first with
        | nil =>
          obtain ⟨rfl, -⟩ := List.cons.inj hsplit
          rw [List.append_nil, hgo] at hstop
          cases hstop
        | cons c first =>
          obtain ⟨rfl, hrest⟩ := List.cons.inj hsplit
          refine ih.mpr ⟨first, b, post, hrest, ?_⟩
          rw [List.append_assoc]
          exact hstop
      · rfl

/-- Behind a first call that goes on, the others are made until one stops. -/
theorem UntilStop.of_cons {before rest calls : List α} {a : α} (hgo : go before a = true)
    (h : UntilStop go before (a :: rest) (a :: calls)) :
      UntilStop go (before ++ [a]) rest calls := by
  refine ⟨(List.cons_prefix_cons.mp h.in_order).2, ?_, ?_⟩
  · intro first c post hsplit hstop
    rw [List.append_assoc] at hstop
    exact h.last (a :: first) c post (by rw [hsplit, List.cons_append]) hstop
  · rcases h.all_or_stopped with hall | ⟨first, c, hsplit, hstop⟩
    · exact .inl (List.cons.inj hall).2
    · cases first with
      | nil =>
        obtain ⟨rfl, -⟩ := List.cons.inj hsplit
        rw [List.append_nil, hgo] at hstop
        cases hstop
      | cons d first =>
        obtain ⟨rfl, hrest⟩ := List.cons.inj hsplit
        refine .inr ⟨first, c, hrest, ?_⟩
        rw [List.append_assoc]
        exact hstop

/-- A call that goes on can be put in front of calls that are made until one stops. -/
theorem UntilStop.cons {before rest calls : List α} {a : α} (hgo : go before a = true)
    (h : UntilStop go (before ++ [a]) rest calls) :
      UntilStop go before (a :: rest) (a :: calls) := by
  refine ⟨List.cons_prefix_cons.mpr ⟨rfl, h.in_order⟩, ?_, ?_⟩
  · intro first c post hsplit hstop
    cases first with
    | nil =>
      obtain ⟨rfl, -⟩ := List.cons.inj hsplit
      rw [List.append_nil, hgo] at hstop
      cases hstop
    | cons d first =>
      obtain ⟨rfl, hrest⟩ := List.cons.inj hsplit
      refine h.last first c post hrest ?_
      rw [List.append_assoc]
      exact hstop
  · rcases h.all_or_stopped with hall | ⟨first, c, hsplit, hstop⟩
    · exact .inl (by rw [hall])
    · refine .inr ⟨a :: first, c, by rw [hsplit, List.cons_append], ?_⟩
      rw [List.append_assoc] at hstop
      exact hstop

/-- A first call that stops is the only one. -/
theorem untilStop_cons_of_stop {before rest calls : List α} {a : α} (hstop : go before a = false) :
    UntilStop go before (a :: rest) (a :: calls) ↔ calls = [] := by
  have hstop' : go (before ++ []) a = false := by rw [List.append_nil, hstop]
  constructor
  · intro h
    exact h.last [] a calls rfl hstop'
  · intro hcalls
    subst hcalls
    refine ⟨List.cons_prefix_cons.mpr ⟨rfl, List.nil_prefix⟩, ?_, .inr ⟨[], a, rfl, hstop'⟩⟩
    intro first c post hsplit _
    have hlength := congrArg List.length hsplit
    rw [List.length_singleton, List.length_append, List.length_cons] at hlength
    exact List.eq_nil_of_length_eq_zero (by omega)

/-- The first call is of the first item, and what follows depends on its answer. -/
theorem untilStop_cons {before rest calls : List α} {a b : α} :
    UntilStop go before (a :: rest) (b :: calls) ↔
      b = a ∧ if go before a then UntilStop go (before ++ [a]) rest calls else calls = [] := by
  constructor
  · intro h
    obtain ⟨rfl, -⟩ := List.cons_prefix_cons.mp h.in_order
    refine ⟨rfl, ?_⟩
    split_ifs with hgo
    · exact h.of_cons hgo
    · exact (untilStop_cons_of_stop (eq_false_of_ne_true hgo)).mp h
  · intro h
    obtain ⟨rfl, h⟩ := h
    split_ifs at h with hgo
    · exact h.cons hgo
    · exact (untilStop_cons_of_stop (eq_false_of_ne_true hgo)).mpr h

/-- Something is called of a list that is not empty. -/
theorem not_untilStop_nil {before rest : List α} {a : α} :
    ¬ UntilStop go before (a :: rest) [] := by
  intro h
  rcases h.all_or_stopped with hall | ⟨first, b, hsplit, -⟩
  · exact List.cons_ne_nil a rest hall.symm
  · simp at hsplit

/-- What is called until a stop is what is delivered. -/
theorem untilStop_iff {before items calls : List α} :
    UntilStop go before items calls ↔ before ++ calls = (deliver go before items).1 := by
  induction items generalizing before calls with
  | nil =>
    rw [deliver_nil, List.append_right_eq_self]
    constructor
    · intro h
      exact List.prefix_nil.mp h.in_order
    · intro h
      subst h
      exact ⟨List.prefix_rfl, fun first a rest hsplit => by simp at hsplit, .inl rfl⟩
  | cons a rest ih =>
    cases calls with
    | nil =>
      refine iff_of_false not_untilStop_nil ?_
      intro h
      rw [List.append_nil] at h
      exact List.cons_ne_nil a rest (deliver_eq_self_iff.mp h.symm)
    | cons b calls =>
      rw [untilStop_cons]
      have hcons : before ++ b :: calls = (before ++ [b]) ++ calls := by simp
      rw [hcons]
      constructor
      · intro h
        obtain ⟨rfl, h⟩ := h
        rw [deliver]
        split_ifs at h ⊢ with hgo
        · exact ih.mp h
        · rw [h, List.append_nil]
      · intro h
        have hcalled := prefix_deliver_cons go before a rest
        rw [← h] at hcalled
        have hsame : before ++ [a] = before ++ [b] :=
          (List.prefix_of_prefix_length_le hcalled (List.prefix_append _ calls)
            (by simp)).eq_of_length
            (by simp)
        obtain rfl : a = b := by simpa using hsame
        refine ⟨rfl, ?_⟩
        rw [deliver] at h
        split_ifs at h ⊢ with hgo
        · exact ih.mpr h
        · simpa using h

end Delivery
