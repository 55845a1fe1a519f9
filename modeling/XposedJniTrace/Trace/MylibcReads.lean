import Mathlib.Data.List.Range
import XposedJniTrace.Library.Loop
import XposedJniTrace.Library.Search
import XposedJniTrace.Trace.Mylibc

/-!
# What the string functions of `mylibc.h` read

`my_strlen`, `my_strncmp` and `my_strstr` over the bytes of a memory, with the addresses that they
read through the pointers into each of their strings. The strings may lie anywhere, also in one
another. What the functions answer is what they answer for the strings alone, which `isLister` is
modelled with.
-/

namespace XposedJniTrace.Mylibc

open Search

/-- What is read through the pointers into the first string, and into the second. -/
structure Reads where
  first : List ℕ
  second : List ℕ

/-- The reads of one piece, and of what follows it. -/
def Reads.append (r r' : Reads) : Reads := ⟨r.first ++ r'.first, r.second ++ r'.second⟩

namespace InMemory

variable (mem : ℕ → UInt8)

/-- One round of the loop of `my_strlen`. -/
def my_strlen.body (v : ℕ × ℕ × List ℕ) : ℕ × ℕ × List ℕ ⊕ ℕ × List ℕ :=
  let (s, len, reads) := v
  if mem s ≠ 0 then .inl (s + 1, len + 1, reads ++ [s]) else .inr (len, reads ++ [s])

/-- `my_strlen`, with the addresses that it reads. -/
def my_strlen (fuel s : ℕ) : Option (ℕ × List ℕ) := Loop.run (my_strlen.body mem) fuel (s, 0, [])

/-- `my_strncmp`, with the addresses that it reads. -/
def my_strncmp : ℕ → ℕ → ℕ → ℤ × Reads
  | _, _, 0 => (0, ⟨[], []⟩)
  | s1, s2, n + 1 =>
    -- the bytes that differ are read once more
    if mem s1 ≠ mem s2 then ((mem s1).toNat - (mem s2).toNat, ⟨[s1, s1], [s2, s2]⟩)
    else if mem s1 = 0 then (0, ⟨[s1, s1], [s2]⟩)
    else
      let rest := my_strncmp (s1 + 1) (s2 + 1) n
      (rest.1, Reads.append ⟨[s1, s1], [s2]⟩ rest.2)

/-- One round of the inner loop of `my_strstr`, and where it ends one of the outer loop. -/
def my_strstr.body (c : UInt8) (find len : ℕ) (v : ℕ × Reads) : ℕ × Reads ⊕ Option ℕ × Reads :=
  let (s, reads) := v
  let reads := reads.append ⟨[s], []⟩
  if mem s = 0 then .inr (none, reads)
  else if mem s ≠ c then .inl (s + 1, reads)
  else
    let compared := my_strncmp mem (s + 1) find len
    if compared.1 ≠ 0 then .inl (s + 1, reads.append compared.2)
    else .inr (some s, reads.append compared.2)

/-- `my_strstr`, whose null is `none`. -/
def my_strstr (fuel s find : ℕ) : Option (Option ℕ × Reads) :=
  if mem find ≠ 0 then
    (my_strlen mem fuel (find + 1)).bind fun measured =>
      Loop.run (my_strstr.body mem (mem find) (find + 1) measured.1) fuel
        (s, ⟨[], find :: measured.2⟩)
  else some (some s, ⟨[], [find]⟩)

end InMemory

/-- The bytes of a string are in the memory, with the terminator behind them. -/
def Holds (mem : ℕ → UInt8) : ℕ → List UInt8 → Prop
  | p, [] => mem p = 0
  | p, c :: s => mem p = c ∧ c ≠ 0 ∧ Holds mem (p + 1) s

/-- A string that is in the memory. -/
structure StringAt (mem : ℕ → UInt8) (p : ℕ) where
  bytes : List UInt8
  holds : Holds mem p bytes

/-- An address of the string or of its terminator. -/
def InBounds (p : ℕ) (s : List UInt8) (a : ℕ) : Prop := p ≤ a ∧ a ≤ p + s.length

/-- What is read through the pointers into two strings is in them or the terminators. -/
structure Reads.Inside (r : Reads) (p : ℕ) (s : List UInt8) (q : ℕ) (t : List UInt8) : Prop where
  first : ∀ a ∈ r.first, InBounds p s a
  second : ∀ a ∈ r.second, InBounds q t a

/-- `my_strstr` answers where the second string occurs first in the first one, and reads nothing
behind the terminators. -/
def FindsFirst (mem : ℕ → UInt8) (s find : ℕ) (str pattern : List UInt8) : Prop :=
  ∃ fuel reads, InMemory.my_strstr mem fuel s find = some ((first pattern str).map (s + ·), reads) ∧
    reads.Inside s str find pattern

variable {mem : ℕ → UInt8} {p q : ℕ} {s t : List UInt8} {c : UInt8} {r r' r'' : Reads}

/-- The byte at the pointer is the first one of the string, or the terminator. -/
theorem Holds.char (h : Holds mem p s) : mem p = char s := by
  cases s with
  | nil => exact h
  | cons c s => exact h.1

/-- One byte on is the tail of the string. -/
theorem Holds.tail (h : Holds mem p s) (hp : mem p ≠ 0) : Holds mem (p + 1) s.tail := by
  cases s with
  | nil => exact absurd h hp
  | cons c s => exact h.2.2

/-- The tail ends where the string does. -/
theorem Holds.length_tail (h : Holds mem p s) (hp : mem p ≠ 0) :
    p + 1 + s.tail.length = p + s.length := by
  cases s with
  | nil => exact absurd h hp
  | cons c s => exact Nat.succ_add_eq_add_succ p s.length

/-- A string in memory has no terminator inside. -/
theorem Holds.nonzero (h : Holds mem p s) : 0 ∉ s := by
  induction s generalizing p with
  | nil => exact List.not_mem_nil
  | cons c s ih => exact List.not_mem_cons_of_ne_of_not_mem h.2.1.symm (ih h.2.2)

/-- The pointer itself is in bounds, at the terminator of an empty string. -/
theorem InBounds.start (p : ℕ) (s : List UInt8) : InBounds p s p :=
  ⟨Nat.le_refl p, Nat.le_add_right _ _⟩

/-- What is in the tail of a string is in the string. -/
theorem InBounds.of_tail (h : Holds mem p s) (hp : mem p ≠ 0) {a : ℕ}
    (ha : InBounds (p + 1) s.tail a) :
    InBounds p s a :=
  ⟨Nat.le_of_succ_le ha.1, h.length_tail hp ▸ ha.2⟩

/-- Reads are put together in any grouping. -/
theorem Reads.append_assoc (r r' r'' : Reads) :
    (r.append r').append r'' = r.append (r'.append r'') := by
  simp only [Reads.append, List.append_assoc]

namespace Reads.Inside

/-- Reads of two pieces that both stay inside stay inside together. -/
theorem append (h : r.Inside p s q t) (h' : r'.Inside p s q t) : (r.append r').Inside p s q t where
  first := List.forall_mem_append.mpr ⟨h.first, h'.first⟩
  second := List.forall_mem_append.mpr ⟨h.second, h'.second⟩

/-- The first bytes of both strings are read, how often so ever. -/
theorem start {first second : List ℕ} (hfirst : ∀ a ∈ first, a = p)
    (hsecond : ∀ a ∈ second, a = q) :
    Inside ⟨first, second⟩ p s q t where
  first a ha := hfirst a ha ▸ InBounds.start p s
  second a ha := hsecond a ha ▸ InBounds.start q t

/-- What stays inside the tail of the first string stays inside the string. -/
theorem of_tail_first (hp : Holds mem p s) (hzero : mem p ≠ 0) (h : r.Inside (p + 1) s.tail q t) :
    r.Inside p s q t where
  first a ha := .of_tail hp hzero (h.first a ha)
  second := h.second

/-- What stays inside the tail of the second string stays inside the string. -/
theorem of_tail_second (hq : Holds mem q t) (hzero : mem q ≠ 0) (h : r.Inside p s (q + 1) t.tail) :
    r.Inside p s q t where
  first := h.first
  second a ha := .of_tail hq hzero (h.second a ha)

end Reads.Inside

/-- `my_strlen` reads its string and the terminator, each byte once. -/
theorem run_my_strlen (h : Holds mem p s) (len : ℕ) (reads : List ℕ) :
    Loop.run (InMemory.my_strlen.body mem) (s.length + 1) (p, len, reads) =
      some (len + s.length, reads ++ List.range' p (s.length + 1)) := by
  induction s generalizing p len reads with
  | nil =>
    have hzero : ¬ mem p ≠ 0 := not_not_intro h
    have hbody : InMemory.my_strlen.body mem (p, len, reads) =
        .inr (len, reads ++ [p]) := if_neg hzero
    exact Loop.run_of_inr hbody 0
  | cons c s ih =>
    have hnext : mem p ≠ 0 := h.1 ▸ h.2.1
    have hbody : InMemory.my_strlen.body mem (p, len, reads) =
        .inl (p + 1, len + 1, reads ++ [p]) :=
      if_pos hnext
    rw [Loop.run_of_inl hbody, List.length_cons, ih h.2.2, List.append_assoc, List.singleton_append,
      Nat.add_assoc, Nat.add_comm 1, ← List.range'_succ]

/-- `my_strncmp` answers what it answers for the strings alone. -/
theorem my_strncmp_value (hp : Holds mem p s) (hq : Holds mem q t) (n : ℕ) :
    (InMemory.my_strncmp mem p q n).1 = my_strncmp s t n := by
  induction n generalizing p q s t with
  | zero => rfl
  | succ n ih =>
    rw [InMemory.my_strncmp, my_strncmp, ← hp.char, ← hq.char]
    split_ifs with hdiffer hend
    · rfl
    · rfl
    · rw [not_not] at hdiffer
      exact ih (hp.tail hend) (hq.tail (hdiffer ▸ hend))

/-- `my_strncmp` goes on only where neither string has ended. -/
theorem my_strncmp_inside (hp : Holds mem p s) (hq : Holds mem q t) (n : ℕ) :
    (InMemory.my_strncmp mem p q n).2.Inside p s q t := by
  induction n generalizing p q s t with
  | zero => exact .start (List.forall_mem_nil _) (List.forall_mem_nil _)
  | succ n ih =>
    rw [InMemory.my_strncmp]
    split_ifs with hdiffer hend
    · exact .start (by simp) (by simp)
    · exact .start (by simp) (by simp)
    · rw [not_not] at hdiffer
      have hgoes : mem q ≠ 0 := hdiffer ▸ hend
      have hrest := ih (hp.tail hend) (hq.tail hgoes)
      exact .append (.start (by simp) (by simp))
        (.of_tail_first hp hend (.of_tail_second hq hgoes hrest))

/-- In front of the terminator, a round ends the loops exactly at an occurrence. -/
theorem my_strstr_body {sc : UInt8} (hp : Holds mem p (sc :: s)) (hq : Holds mem q t)
    (reads : Reads) :
    ∃ more, more.Inside p (sc :: s) q t ∧ InMemory.my_strstr.body mem c q t.length (p, reads) =
      if c :: t <+: sc :: s then .inr (some p, reads.append more)
        else .inl (p + 1, reads.append more) := by
  obtain ⟨hsc, hzero, hs⟩ := hp
  have hstart : Reads.Inside ⟨[p], []⟩ p (sc :: s) q t := .start (by simp) (by simp)
  have hgoes : mem p ≠ 0 := hsc ▸ hzero
  rw [InMemory.my_strstr.body]
  dsimp only
  rw [if_neg hgoes, hsc]
  by_cases hhead : sc = c
  · subst hhead
    have hinside := my_strncmp_inside hs hq t.length
    have hcompared : (InMemory.my_strncmp mem (p + 1) q t.length).1 = 0 ↔ t <+: s := by
      rw [my_strncmp_value hs hq, my_strncmp_eq_zero hq.nonzero]
    refine ⟨.append ⟨[p], []⟩ (InMemory.my_strncmp mem (p + 1) q t.length).2,
      hstart.append (.of_tail_first ⟨hsc, hzero, hs⟩ hgoes hinside), ?_⟩
    rw [if_neg (not_not_intro rfl), Reads.append_assoc]
    by_cases htail : t <+: s
    · have hhere : sc :: t <+: sc :: s := List.cons_prefix_cons.mpr ⟨rfl, htail⟩
      rw [if_neg (not_not_intro (hcompared.mpr htail)), if_pos hhere]
    · have hhere : ¬ sc :: t <+: sc :: s := fun h => htail (List.cons_prefix_cons.mp h).2
      rw [if_pos (fun h => htail (hcompared.mp h)), if_neg hhere]
  · have hhere : ¬ c :: t <+: sc :: s := fun h => hhead (List.cons_prefix_cons.mp h).1.symm
    refine ⟨⟨[p], []⟩, hstart, ?_⟩
    rw [if_pos hhead, if_neg hhere]

/-- The loops of `my_strstr` find the first occurrence. -/
theorem run_my_strstr (c : UInt8) (hq : Holds mem q t) (hp : Holds mem p s) (reads : Reads) :
    ∃ more, Loop.run (InMemory.my_strstr.body mem c q t.length) (s.length + 1) (p, reads) =
        some ((first (c :: t) s).map (p + ·), reads.append more) ∧ more.Inside p s q t := by
  induction s generalizing p reads with
  | nil =>
    have hbody : InMemory.my_strstr.body mem c q t.length (p, reads) =
        .inr (none, reads.append ⟨[p], []⟩) := if_pos hp
    exact ⟨⟨[p], []⟩, Loop.run_of_inr hbody 0, .start (by simp) (by simp)⟩
  | cons sc s ih =>
    obtain ⟨more, hmore, hbody⟩ := my_strstr_body hp hq reads
    rw [first]
    by_cases hhere : c :: t <+: sc :: s
    · rw [if_pos hhere] at hbody ⊢
      exact ⟨more, Loop.run_of_inr hbody _, hmore⟩
    · rw [if_neg hhere] at hbody ⊢
      obtain ⟨later, hrun, hlater⟩ := ih hp.2.2 (reads.append more)
      have hgoes : mem p ≠ 0 := hp.1 ▸ hp.2.1
      refine ⟨more.append later, ?_, hmore.append (.of_tail_first hp hgoes hlater)⟩
      rw [List.length_cons, Loop.run_of_inl hbody, hrun, Reads.append_assoc, Option.map_map]
      congr 3
      funext i
      exact Nat.succ_add_eq_add_succ p i

/-- `my_strstr` finds the first occurrence, and reads nothing behind the terminators, wherever the
strings are. -/
theorem my_strstr_findsFirst (str : StringAt mem p) (pattern : StringAt mem q) :
    FindsFirst mem p q str.bytes pattern.bytes := by
  obtain ⟨s, hs⟩ := str
  obtain ⟨pattern, hpattern⟩ := pattern
  change FindsFirst mem p q s pattern
  cases pattern with
  | nil =>
    have hempty : ¬ mem q ≠ 0 := not_not_intro hpattern
    refine ⟨0, ⟨[], [q]⟩, ?_, .start (List.forall_mem_nil _) (by simp)⟩
    rw [InMemory.my_strstr, if_neg hempty, first_nil]
    rfl
  | cons c t =>
    have ht := hpattern.2.2
    have hgoes : mem q ≠ 0 := hpattern.1 ▸ hpattern.2.1
    obtain ⟨more, hrun, hmore⟩ :=
      run_my_strstr c ht hs ⟨[], q :: List.range' (q + 1) (t.length + 1)⟩
    have hlen := Loop.run_mono (run_my_strlen ht 0 [])
      (Nat.le_max_left (t.length + 1) (s.length + 1))
    have hsearch := Loop.run_mono hrun (Nat.le_max_right (t.length + 1) (s.length + 1))
    have hmeasured : Reads.Inside ⟨[], q :: List.range' (q + 1) (t.length + 1)⟩ p s q (c :: t) := by
      refine ⟨List.forall_mem_nil _, ?_⟩
      intro a ha
      rw [List.mem_cons, List.mem_range'_1] at ha
      rw [InBounds, List.length_cons]
      omega
    refine ⟨max (t.length + 1) (s.length + 1), _, ?_,
      hmeasured.append (.of_tail_second hpattern hgoes hmore)⟩
    rw [InMemory.my_strstr, if_pos hgoes, InMemory.my_strlen, hlen, Option.bind_some, Nat.zero_add,
      List.nil_append, hpattern.1]
    exact hsearch

/-- A string is found that lies in the one that it is looked for in. -/
example : (InMemory.my_strstr (fun a => [0x61, 0x61, 0x62].getD a 0) 4 0 1).map
    Prod.fst = some (some 1) := by
  decide

/-- For the strings alone, `my_strstr` answers the suffix where the first occurrence is. -/
theorem my_strstr_eq_first (s : List UInt8) (find : CString) :
    my_strstr s find.bytes = (first find.bytes s).map fun i => s.drop i := by
  obtain ⟨find, hfind⟩ := find
  change my_strstr s find = (first find s).map fun i => s.drop i
  cases find with
  | nil =>
    rw [first_nil]
    rfl
  | cons c t =>
    obtain ⟨-, ht⟩ := List.ne_and_not_mem_of_not_mem_cons hfind
    change my_strstr.loop c t (my_strlen t) s = _
    rw [my_strlen_eq]
    induction s with
    | nil => rfl
    | cons sc s ih =>
      have hhere : c :: t <+: sc :: s ↔ ¬ sc ≠ c ∧ ¬ my_strncmp s t t.length ≠ 0 := by
        rw [List.cons_prefix_cons, not_not, not_not, my_strncmp_eq_zero ht, eq_comm]
      rw [my_strstr.loop, first, ih]
      by_cases h : c :: t <+: sc :: s
      · obtain ⟨hhead, hcompared⟩ := hhere.mp h
        rw [if_pos h, if_neg hhead, if_neg hcompared]
        rfl
      · rw [if_neg h, Option.map_map]
        split_ifs with hhead hcompared
        · rfl
        · rfl
        · exact absurd (hhere.mpr ⟨hhead, hcompared⟩) h

/-- What `my_strstr` answers for strings in a memory is the address of what it answers for the
strings alone. -/
theorem my_strstr_address (p : ℕ) (s : List UInt8) (find : CString) :
    (my_strstr s find.bytes).map (fun rest => p + (s.length - rest.length)) =
      (first find.bytes s).map (p + ·) := by
  rw [my_strstr_eq_first, Option.map_map]
  cases hfirst : first find.bytes s with
  | none => rfl
  | some i =>
    obtain ⟨front, rest, hsplit, hlength⟩ := (first_eq_some.mp hfirst).exists_split
    have hi : i ≤ s.length := by
      rw [hsplit, List.length_append, hlength]
      exact Nat.le_add_right _ _
    have hdrop : s.length - (s.drop i).length = i := by
      rw [List.length_drop]
      omega
    exact congrArg (fun n => some (p + n)) hdrop

end XposedJniTrace.Mylibc
