import Mathlib.Data.List.Basic

/-!
# Lines of code with line comments

A text is cut into lines; of each line the part in front of a comment is code, and a comment starts
at two comment marks in a row. The lines of code of a text are those parts that are not blank.

A part of a line is *plain* if everything in it stays code, whatever comes behind it. Plain parts
can be put behind each other.
-/

namespace CodeLines

/-- The symbols of a text that have a meaning in it. -/
structure Marks (α : Type*) where
  newline : α
  mark : α
  blank : α → Bool
  newline_ne_mark : newline ≠ mark

variable {α : Type*} [DecidableEq α] (m : Marks α)

/-- The part of a line in front of its comment. -/
def code : List α → List α
  | [] => []
  | a :: rest => if a = m.mark ∧ rest.head? = some m.mark then [] else a :: code rest

/-- Whether something is to be seen. -/
def visible (line : List α) : Bool := line.any fun a => !m.blank a

/-- The code of the lines that have some. -/
def codeLines (text : List α) : List (List α) :=
  ((text.splitOn m.newline).map (code m)).filter (visible m)

/-- A part of a line that stays code. -/
def Plain (x : List α) : Prop := m.newline ∉ x ∧ ∀ rest, code m (x ++ rest) = x ++ code m rest

/-- A part of a line that has no comment in it; its last symbol may be a mark. -/
def Clear (x : List α) : Prop := m.newline ∉ x ∧ ¬ [m.mark, m.mark] <:+: x

section Plain

variable {m} {x y : List α}

/-- Nothing is plain. -/
theorem plain_nil : Plain m ([] : List α) := ⟨List.not_mem_nil, fun _ => rfl⟩

/-- Plain text behind plain text is plain. -/
theorem Plain.append (hx : Plain m x) (hy : Plain m y) : Plain m (x ++ y) := by
  constructor
  · rw [List.mem_append, not_or]
    exact ⟨hx.1, hy.1⟩
  · intro rest
    rw [List.append_assoc, hx.2, hy.2, List.append_assoc]

omit [DecidableEq α] in

/-- What is behind a byte of clear text is clear. -/
theorem Clear.of_cons {a : α} (h : Clear m (a :: x)) : Clear m x :=
  ⟨fun hx => h.1 (List.mem_cons_of_mem _ hx), fun hx =>
    h.2 (hx.trans (List.suffix_cons a x).isInfix)⟩

omit [DecidableEq α] in
/-- No comment starts in front of what has none in it, unless a mark comes behind it. -/
theorem Clear.not_comment {a : α} (h : Clear m (a :: x)) (hy : y.head? ≠ some m.mark) :
    ¬ (a = m.mark ∧ (x ++ y).head? = some m.mark) := by
  rintro ⟨rfl, hhead⟩
  cases x with
  | nil => exact hy hhead
  | cons c x =>
    obtain rfl : c = m.mark := Option.some.inj hhead
    exact h.2 ⟨[], x, rfl⟩

/-- What has no mark in it is plain. -/
theorem plain_of_not_mem (hnewline : m.newline ∉ x) (hmark : m.mark ∉ x) : Plain m x := by
  refine ⟨hnewline, fun rest => ?_⟩
  induction x with
  | nil => rfl
  | cons a x ih =>
    have ha : a ≠ m.mark := fun h => hmark (h ▸ List.mem_cons_self)
    rw [List.cons_append, code, if_neg fun h => ha h.1,
      ih (fun h => hnewline (List.mem_cons_of_mem _ h)) fun h => hmark (List.mem_cons_of_mem _ h)]
    rfl

/-- What has no comment in it is plain up to a symbol that is no mark. -/
theorem Clear.append_plain (hx : Clear m x) {a : α} (ha : a ≠ m.mark) (hy : Plain m (a :: y)) :
    Plain m (x ++ a :: y) := by
  constructor
  · rw [List.mem_append, not_or]
    exact ⟨hx.1, hy.1⟩
  · intro rest
    rw [List.append_assoc]
    induction x with
    | nil => exact hy.2 rest
    | cons b x ih =>
      have hhead : (a :: y ++ rest).head? ≠ some m.mark := fun h => ha (Option.some.inj h)
      rw [List.cons_append, code, if_neg (hx.not_comment hhead), ih hx.of_cons]
      rfl

/-- What has no comment in it is code up to the end of a line. -/
theorem Clear.code_eq (hx : Clear m x) : code m x = x := by
  induction x with
  | nil => rfl
  | cons a x ih =>
    have hcode := hx.not_comment (List.head?_nil.trans_ne (Option.some_ne_none m.mark).symm)
    rw [List.append_nil] at hcode
    rw [code, if_neg hcode, ih hx.of_cons]

end Plain

section Lines

variable {m} {x y : List α}

/-- The lines in front of a newline and those behind it. -/
theorem codeLines_append_newline (x y : List α) :
    codeLines m (x ++ m.newline :: y) = codeLines m x ++ codeLines m y := by
  unfold codeLines
  rw [List.splitOn_append_cons_self, List.map_append, List.filter_append]

/-- A text without a newline is one line. -/
theorem codeLines_of_not_mem (h : m.newline ∉ x) :
    codeLines m x = if visible m (code m x) then [code m x] else [] := by
  unfold codeLines
  rw [List.splitOn_eq_singleton h, List.map_singleton, List.filter_singleton]
  cases visible m (code m x) <;> rfl

/-- No text has no lines of code. -/
@[simp] theorem codeLines_nil : codeLines m ([] : List α) = [] := by
  rw [codeLines_of_not_mem List.not_mem_nil]
  rfl

omit [DecidableEq α] in

/-- Something is visible in one of two parts. -/
@[simp] theorem visible_append (x y : List α) : visible m (x ++ y) = (visible m x || visible m y) :=
  List.any_append

/-- A plain part of a line and one without comment make up a line of code. -/
theorem Plain.codeLines_append (hx : Plain m x) (hy : Clear m y) (hv : visible m x) :
    codeLines m (x ++ y) = [x ++ y] := by
  have hnewline : m.newline ∉ x ++ y := by
    rw [List.mem_append, not_or]
    exact ⟨hx.1, hy.1⟩
  have hvisible : visible m (x ++ y) := by rw [visible_append, hv, Bool.true_or]
  rw [codeLines_of_not_mem hnewline, hx.2, hy.code_eq, if_pos hvisible]

omit [DecidableEq α] in

/-- No text is clear. -/
theorem clear_nil : Clear m ([] : List α) :=
  ⟨List.not_mem_nil, fun h => List.cons_ne_nil _ _ (List.eq_nil_of_infix_nil h)⟩

/-- A plain line is code. -/
theorem Plain.codeLines_eq (hx : Plain m x) (hv : visible m x) : codeLines m x = [x] := by
  have h := hx.codeLines_append clear_nil hv
  rwa [List.append_nil] at h

/-- A comment behind plain text has no newline. -/
theorem Plain.newline_not_mem_comment (hx : Plain m x) (hy : m.newline ∉ y) :
    m.newline ∉ x ++ m.mark :: m.mark :: y := by
  simp only [List.mem_append, List.mem_cons, not_or]
  exact ⟨hx.1, m.newline_ne_mark, m.newline_ne_mark, hy⟩

/-- Of a line with a comment the part in front of it is code. -/
theorem Plain.codeLines_comment (hx : Plain m x) (hy : m.newline ∉ y) :
    codeLines m (x ++ m.mark :: m.mark :: y) = if visible m x then [x] else [] := by
  have hcode : code m (x ++ m.mark :: m.mark :: y) = x := by
    rw [hx.2, code, if_pos ⟨rfl, rfl⟩, List.append_nil]
  rw [codeLines_of_not_mem (hx.newline_not_mem_comment hy), hcode]

end Lines

end CodeLines
