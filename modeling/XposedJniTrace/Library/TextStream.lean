import Mathlib.Data.List.Basic

/-!
# Streams with a put position

A stream of text over a buffer in memory, with the position where the next insertion is put. An
insertion overwrites what is at the position and extends the text behind its end; the position can
be moved back. A stream whose position is the end of its text is given by the text alone, and so is
one whose last part was taken back and overwritten by something as long.
-/

namespace TextStream

/-- The text, the put position, and whether an operation has failed. -/
structure Stream (α : Type*) where
  text : List α
  put : ℕ
  fail : Bool

variable {α : Type*}

/-- Insert at the put position. -/
def write (x : List α) (s : Stream α) : Stream α :=
  if s.fail then s
  else ⟨s.text.take s.put ++ x ++ s.text.drop (s.put + x.length), s.put + x.length, false⟩

/-- Move the put position back; in front of the text it fails. -/
def seekBack (n : ℕ) (s : Stream α) : Stream α :=
  if s.fail then s
  else if n ≤ s.put then { s with put := s.put - n }
  else { s with fail := true }

/-- A stream that is at the end of its text. -/
def atEnd (text : List α) : Stream α := ⟨text, text.length, false⟩

/-- A stream at the end of its text has that text. -/
@[simp] theorem text_atEnd (text : List α) : (atEnd text).text = text := rfl

/-- An insertion at the end extends the text. -/
@[simp] theorem write_atEnd (x text : List α) : write x (atEnd text) = atEnd (text ++ x) := by
  have hdrop : text.drop (text.length + x.length) = [] :=
    List.drop_of_length_le (Nat.le_add_right _ _)
  rw [write, atEnd, if_neg Bool.false_ne_true]
  change Stream.mk (text.take text.length ++ x ++ text.drop (text.length + x.length)) _ _ = _
  rw [List.take_length, hdrop, List.append_nil, atEnd, List.length_append]

/-- What is inserted over a last part, and is as long, takes its place. -/
theorem write_seekBack {old new : List α} (h : old.length ≤ new.length) (text : List α) :
    write new (seekBack old.length (atEnd (text ++ old))) = atEnd (text ++ new) := by
  have hle : old.length ≤ (text ++ old).length := by
    rw [List.length_append]
    omega
  have hput : (text ++ old).length - old.length = text.length := by
    rw [List.length_append]
    omega
  have hseek : seekBack old.length (atEnd (text ++ old)) = ⟨text ++ old, text.length, false⟩ := by
    rw [seekBack, atEnd, if_neg Bool.false_ne_true, if_pos hle]
    exact congrArg (fun put => Stream.mk (text ++ old) put false) hput
  have hbehind : (text ++ old).drop (text.length + new.length) = [] := by
    apply List.drop_of_length_le
    rw [List.length_append]
    omega
  rw [hseek, write, if_neg Bool.false_ne_true]
  change Stream.mk
    ((text ++ old).take text.length ++ new ++ (text ++ old).drop (text.length + new.length))
    _ _ = _
  rw [List.take_left, hbehind, List.append_nil, atEnd, List.length_append]

/-- Texts that each have a separator behind them are those texts joined, and a last separator. -/
theorem flatMap_separated (separator first : List α) (rest : List (List α)) :
    (first :: rest).flatMap (fun t => t ++ separator) =
      separator.intercalate (first :: rest) ++ separator := by
  induction rest generalizing first with
  | nil => simp [List.intercalate]
  | cons second rest ih =>
    rw [List.flatMap_cons, ih, List.intercalate_cons_cons]
    simp only [List.append_assoc]

end TextStream
