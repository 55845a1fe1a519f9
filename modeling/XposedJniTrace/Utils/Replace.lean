import Mathlib.Tactic.Ring
import XposedJniTrace.Library.Loop
import XposedJniTrace.Library.Search

/-!
# Replacing in a string

`replace` of `utils/stringUtils.cpp`. Its loop looks for the pattern in the string that it has
changed so far, from behind the text that it has put there, so that what it still looks at is an end
of the string that it was given. The replacements are counted in an `int`, which has no value for
2 ^ 31 of them, and a pattern that is empty is found again wherever the loop goes on. The string is
neither the pattern nor the text that is put in its place.
-/

namespace XposedJniTrace.StringUtils

open Search

/-- The string, where the pattern has been found, if not nowhere, and the count. -/
structure Replacing where
  str : List UInt8
  pos : Option ℕ
  count : BitVec 32

namespace replace

/-- In front of the first round. -/
def start (str pattern : List UInt8) : Replacing := ⟨str, firstFrom pattern str 0, 0⟩

/-- One round of the loop, or the count and the string behind it. -/
def body (pattern newpat : List UInt8) (v : Replacing) : Replacing ⊕ (ℤ × List UInt8) :=
  match v.pos with
  | none => .inr (v.count.toInt, v.str)
  | some pos =>
    let str := v.str.take pos ++ newpat ++ v.str.drop (pos + pattern.length)
    .inl ⟨str, firstFrom pattern str (pos + newpat.length), v.count + 1⟩

end replace

/-- `replace` within so many rounds and the look that ends the loop. -/
def replace (rounds : ℕ) (str pattern newpat : List UInt8) : Option (ℤ × List UInt8) :=
  Loop.run (replace.body pattern newpat) (rounds + 1) (replace.start str pattern)

/-- The variables that the loop comes to, with where the text ends that it has put in last. -/
inductive Reached (str pattern newpat : List UInt8) : Replacing → ℕ → Prop where
  | start : Reached str pattern newpat (replace.start str pattern) 0
  | again {v v' : Replacing} {last pos : ℕ} (h : Reached str pattern newpat v last)
      (hpos : v.pos = some pos) (hbody : replace.body pattern newpat v = .inl v') :
      Reached str pattern newpat v' (pos + newpat.length)

/-- `replace` replaces the leftmost occurrences that do not overlap, and answers how many they
are. -/
structure ReplacesLeftmost (str pattern newpat : List UInt8) : Prop where
  replaced : ∃ rounds str', ∃ n : ℕ,
    replace rounds str pattern newpat = some ((n : ℤ), str') ∧ Replaced pattern newpat str str' n
  /-- What is found begins behind all that has been put in, in what is left of the string. -/
  original : ∀ v last pos, Reached str pattern newpat v last → v.pos = some pos →
    last ≤ pos ∧ ∃ scanned, v.str.drop last = str.drop scanned

/-- The loop ends after so many rounds at most. -/
def EndsWithin (rounds : ℕ) (str pattern newpat : List UInt8) : Prop :=
  (replace rounds str pattern newpat).isSome

variable {str pattern newpat done front rest : List UInt8} {count : BitVec 32}

/-- A round that finds the pattern goes on behind the text that it puts there. -/
theorem body_found (h : IsFirst pattern (front ++ (pattern ++ rest)) front.length) :
    replace.body pattern newpat ⟨done ++ (front ++ (pattern ++ rest)),
        firstFrom pattern (done ++ (front ++ (pattern ++ rest))) done.length, count⟩ =
      .inl ⟨(done ++ (front ++ newpat)) ++ rest,
        firstFrom pattern ((done ++ (front ++ newpat)) ++ rest)
        (done ++ (front ++ newpat)).length, count + 1⟩ := by
  have hpos : firstFrom pattern (done ++ (front ++ (pattern ++ rest))) done.length =
      some (done ++ front).length := by
    rw [firstFrom_append, first_eq_some.mpr h, Option.map_some, List.length_append]
  have hstr : (done ++ (front ++ (pattern ++ rest))).take (done ++ front).length ++ newpat ++
      (done ++ (front ++ (pattern ++ rest))).drop ((done ++ front).length + pattern.length) =
        (done ++ (front ++ newpat)) ++ rest := by
    rw [← List.append_assoc done front, List.take_left, ← List.append_assoc (done ++ front) pattern,
      ← List.length_append, List.drop_left, List.append_assoc done front newpat]
  have hlength : (done ++ front).length + newpat.length = (done ++ (front ++ newpat)).length := by
    rw [← List.length_append, List.append_assoc]
  rw [replace.body, hpos]
  dsimp only
  rw [hstr, hlength]

/-- The loop replaces what is left to be replaced behind what is done, with a round for each. -/
theorem run_replaced {rest' : List UInt8} {n : ℕ} (h : Replaced pattern newpat rest rest' n)
    (done : List UInt8) (count : BitVec 32) :
    Loop.run (replace.body pattern newpat) (n + 1)
        ⟨done ++ rest, firstFrom pattern (done ++ rest) done.length, count⟩ =
      some ((count + BitVec.ofNat 32 n).toInt, done ++ rest') := by
  induction h generalizing done count with
  | done hnone =>
    apply Loop.run_of_inr
    rw [firstFrom_append, first_eq_none.mpr hnone]
    exact congrArg (fun c : BitVec 32 => Sum.inr (c.toInt, _)) (BitVec.add_zero count).symm
  | next hfirst _ ih =>
    have hcount (n : ℕ) : count + 1 + BitVec.ofNat 32 n = count + BitVec.ofNat 32 (n + 1) := by
      rw [BitVec.ofNat_add, BitVec.add_assoc, BitVec.add_comm 1]
      rfl
    rw [Loop.run_of_inl (body_found hfirst), ih, hcount, List.append_assoc, List.append_assoc]

/-- What `replace` does with a pattern that is not empty. -/
theorem replace_replaced {str' : List UInt8} {n : ℕ} (h : Replaced pattern newpat str str' n) :
    replace n str pattern newpat = some ((BitVec.ofNat 32 n).toInt, str') := by
  have hzero : 0 + BitVec.ofNat 32 n = BitVec.ofNat 32 n := BitVec.zero_add _
  rw [← hzero]
  exact run_replaced h [] 0

/-- At every look, what is behind the text that has been put in last is an end of the string, which
the look begins with. -/
theorem Reached.tail {v : Replacing} {last : ℕ} (h : Reached str pattern newpat v last) :
    ∃ done scanned, v.str = done ++ str.drop scanned ∧ done.length = last ∧
      v.pos = firstFrom pattern v.str last := by
  induction h with
  | start => exact ⟨[], 0, rfl, rfl, rfl⟩
  | @again v v' last pos _ hpos hbody ih =>
    obtain ⟨done, scanned, hstr, rfl, hlook⟩ := ih
    obtain ⟨str', pos', count⟩ := v
    dsimp only at hstr hlook hpos
    subst hstr hlook
    rw [firstFrom_append] at hpos
    obtain ⟨i, hi, rfl⟩ := Option.map_eq_some_iff.mp hpos
    have hfirst := first_eq_some.mp hi
    obtain ⟨front, rest, hsplit, rfl⟩ := hfirst.exists_split
    have hrest : rest = str.drop (scanned + (front ++ pattern).length) := by
      rw [← List.drop_drop, hsplit, ← List.append_assoc, List.drop_left]
    rw [hsplit] at hfirst
    rw [hsplit, body_found hfirst] at hbody
    obtain rfl := Sum.inl.inj hbody
    refine ⟨done ++ (front ++ newpat), scanned + (front ++ pattern).length, ?_, ?_, ?_⟩
    · rw [← hrest]
    · simp only [List.length_append, Nat.add_assoc]
    · simp only [List.length_append, Nat.add_assoc]

/-- No look finds what begins in a text that has been put in. -/
theorem Reached.original {v : Replacing} {last pos : ℕ} (h : Reached str pattern newpat v last)
    (hpos : v.pos = some pos) : last ≤ pos ∧ ∃ scanned, v.str.drop last = str.drop scanned := by
  obtain ⟨done, scanned, hstr, rfl, hlook⟩ := h.tail
  rw [hlook] at hpos
  refine ⟨le_of_firstFrom hpos, scanned, ?_⟩
  rw [hstr, List.drop_left]

/-- An `int` holds a number exactly below 2 ^ 31. -/
theorem toInt_ofNat_eq_iff (n : ℕ) : (BitVec.ofNat 32 n).toInt = n ↔ n < 2 ^ 31 := by
  rw [BitVec.toInt_ofNat']
  constructor
  · intro h
    have hsmall : (n : ℤ).bmod (2 ^ 32) < (2 ^ 32 + 1) / 2 := Int.bmod_lt (by decide)
    omega
  · intro h
    apply Int.bmod_eq_of_le <;> omega

/-- What `replace` answers is the number of the occurrences exactly if it is less than 2 ^ 31. -/
theorem answers_iff (hpattern : pattern ≠ []) (newpat : List UInt8) :
    (∃ rounds str', ∃ n : ℕ, replace rounds str pattern newpat = some ((n : ℤ), str') ∧
      Replaced pattern newpat str str' n) ↔ occurrences pattern str < 2 ^ 31 := by
  obtain ⟨str', hreplaced⟩ := Replaced.exists hpattern newpat str
  have hrun := replace_replaced hreplaced
  rw [← toInt_ofNat_eq_iff]
  constructor
  · intro h
    obtain ⟨rounds, str'', n, hanswer, hreplaced'⟩ := h
    have hsame := Loop.Returns.unique ⟨_, hrun⟩ ⟨_, hanswer⟩
    rw [hreplaced'.count_eq hpattern] at hsame
    exact congrArg Prod.fst hsame
  · intro h
    rw [h] at hrun
    exact ⟨_, str', _, hrun, hreplaced⟩

/-- A pattern that is not empty is replaced from the left, and counted rightly exactly if it occurs
less than 2 ^ 31 times. -/
theorem replacesLeftmost_iff (str newpat : List UInt8) (hpattern : pattern ≠ []) :
    ReplacesLeftmost str pattern newpat ↔ occurrences pattern str < 2 ^ 31 := by
  rw [← answers_iff hpattern newpat]
  constructor
  · intro h
    exact h.replaced
  · intro h
    exact ⟨h, fun v last pos hreached hpos => hreached.original hpos⟩

/-- Where the text that is put in contains the pattern, it is not looked at again. -/
theorem replacesLeftmost_nested : ReplacesLeftmost [0x61, 0x61, 0x61] [0x61, 0x61]
    [0x61, 0x61, 0x61] :=
  (replacesLeftmost_iff [0x61, 0x61, 0x61] [0x61, 0x61, 0x61] (List.cons_ne_nil 0x61 [0x61])).mpr
    (by decide)

/-- A letter occurs in its repetitions once for each. -/
theorem occurrences_replicate (n : ℕ) (c : UInt8) : occurrences [c] (List.replicate n c) = n := by
  induction n with
  | zero => rfl
  | succ n ih =>
    have hhere : [c] <+: c :: List.replicate n c := List.prefix_append [c] _
    rw [List.replicate_succ, occurrences, occurrencesBehind, if_pos hhere]
    exact congrArg (· + 1) ih

/-- The letters of a string of 2 ^ 31 letters are too many to be counted. -/
theorem miscounted : ¬ ReplacesLeftmost (List.replicate (2 ^ 31) 0x61) [0x61] [0x62] := by
  intro h
  have hfew := (answers_iff (List.cons_ne_nil _ _) _).mp h.replaced
  rw [occurrences_replicate] at hfew
  exact Nat.lt_irrefl _ hfew

/-- An empty pattern is found at every position, so that the loop never ends. -/
theorem run_empty (newpat : List UInt8) (rounds : ℕ) {str : List UInt8} {pos : ℕ}
    (hpos : pos ≤ str.length)
    (count : BitVec 32) : Loop.run (replace.body [] newpat) rounds
      ⟨str, some pos, count⟩ = none := by
  induction rounds generalizing str pos count with
  | zero => rfl
  | succ rounds ih =>
    have hlength : (str.take pos ++ newpat).length = pos + newpat.length := by
      rw [List.length_append, List.length_take, Nat.min_eq_left hpos]
    have hbody : replace.body [] newpat ⟨str, some pos, count⟩ =
        .inl ⟨str.take pos ++ newpat ++ str.drop pos, some (pos + newpat.length), count + 1⟩ := by
      rw [replace.body]
      dsimp only
      rw [List.length_nil, Nat.add_zero, ← hlength, firstFrom_append, first_nil]
      rfl
    rw [Loop.run_of_inl hbody]
    apply ih
    rw [List.length_append, hlength]
    exact Nat.le_add_right _ _

/-- With an empty pattern no number of rounds is enough. -/
theorem replace_empty (rounds : ℕ) (str newpat : List UInt8) :
    replace rounds str [] newpat = none := by
  have hstart : firstFrom [] str 0 = some 0 := by
    rw [firstFrom, if_pos (Nat.zero_le _), first_nil]
    rfl
  rw [replace, replace.start, hstart]
  exact run_empty newpat _ (Nat.zero_le _) 0

/-- With a pattern that is not empty there is a round for each occurrence, and these do not
overlap. -/
theorem endsWithin_length (hpattern : pattern ≠ []) (str newpat : List UInt8) :
    EndsWithin (str.length + 1) str pattern newpat := by
  obtain ⟨str', hreplaced⟩ := Replaced.exists hpattern newpat str
  have hfew : occurrences pattern str ≤ str.length :=
    (Nat.le_mul_of_pos_right _ (List.length_pos_iff.mpr hpattern)).trans hreplaced.length_le
  have hrun := Loop.run_mono (replace_replaced hreplaced)
    (Nat.succ_le_succ (Nat.le_succ_of_le hfew))
  rw [EndsWithin, replace, hrun]
  rfl

/-- The loop ends within as many rounds as the string has positions exactly for a pattern that is
not empty. -/
theorem endsWithin_iff (str pattern newpat : List UInt8) :
    EndsWithin (str.length + 1) str pattern newpat ↔ pattern ≠ [] := by
  constructor
  · intro h hempty
    rw [hempty, EndsWithin, replace_empty] at h
    cases h
  · intro hpattern
    exact endsWithin_length hpattern str newpat

/-- With an empty pattern no number of rounds is enough. -/
theorem endless : ¬ EndsWithin ([0x61].length + 1) [0x61] [] [0x62] ∧
    ∀ rounds, ¬ EndsWithin rounds [0x61] [] [0x62] := by
  have hnever (rounds : ℕ) : ¬ EndsWithin rounds [0x61] [] [0x62] := by
    intro h
    rw [EndsWithin, replace_empty] at h
    cases h
  exact ⟨hnever _, hnever⟩

end XposedJniTrace.StringUtils
