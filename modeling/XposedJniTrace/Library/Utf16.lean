import Mathlib.Data.List.Basic
import Mathlib.Data.List.Count
import Mathlib.Data.List.Flatten

/-!
# UTF-16 units in UTF-8

The bytes of a text of UTF-16 units, where a surrogate that is not one half of a pair is replaced by
a question mark, and the encoder that is given the text in parts: it holds back a high surrogate at
the end of a part, since the other half may begin the next one. The parts may be encoded for
themselves exactly when no pair is cut and no surrogate is held back; the question marks tell.
-/

namespace Utf16

/-- The first half of a pair. -/
def high (u : UInt16) : Bool := 0xd800 ≤ u && u < 0xdc00

/-- The second half of a pair. -/
def low (u : UInt16) : Bool := 0xdc00 ≤ u && u < 0xe000

/-- What is put for a half without the other. -/
def replacement : UInt8 := 0x3f

/-- The bytes of a code point. -/
def point (n : ℕ) : List UInt8 :=
  if n < 0x80 then [UInt8.ofNat n]
  else if n < 0x800 then [UInt8.ofNat (0xc0 + n / 0x40), UInt8.ofNat (0x80 + n % 0x40)]
  else if n < 0x10000 then
    [UInt8.ofNat (0xe0 + n / 0x1000), UInt8.ofNat (0x80 + n / 0x40 % 0x40),
      UInt8.ofNat (0x80 + n % 0x40)]
  else
    [UInt8.ofNat (0xf0 + n / 0x40000), UInt8.ofNat (0x80 + n / 0x1000 % 0x40),
      UInt8.ofNat (0x80 + n / 0x40 % 0x40), UInt8.ofNat (0x80 + n % 0x40)]

/-- The bytes of a unit that is not in a pair. -/
def single (u : UInt16) : List UInt8 := if high u || low u then [replacement] else point u.toNat

/-- The bytes of a pair. -/
def pair (u v : UInt16) : List UInt8 :=
  point (0x10000 + (u.toNat - 0xd800) * 0x400 + (v.toNat - 0xdc00))

/-- The bytes of a part, and what is held back of it. -/
def encode : List UInt16 → List UInt8 × List UInt16
  | [] => ([], [])
  | [u] => if high u then ([], [u]) else (single u, [])
  | u :: v :: rest =>
    if high u && low v then
      let r := encode rest
      (pair u v ++ r.1, r.2)
    else
      let r := encode (v :: rest)
      (single u ++ r.1, r.2)

/-- The bytes of a whole text. -/
def utf8 (x : List UInt16) : List UInt8 := (encode x).1 ++ (encode x).2.flatMap single

/-- The last unit is the first half of a pair. -/
def endsHigh (x : List UInt16) : Bool := x.getLast?.any high

/-- The first unit is the second half of a pair. -/
def beginsLow (x : List UInt16) : Bool := x.head?.any low

section Encode

/-- A high surrogate is no low one. -/
theorem not_low_of_high {u : UInt16} (h : high u) : low u = false := by
  rw [high, Bool.and_eq_true, decide_eq_true_eq, decide_eq_true_eq] at h
  rw [low, Bool.and_eq_false_iff, decide_eq_false_iff_not]
  exact .inl (UInt16.not_le.mpr h.2)

/-- A unit that is no high surrogate is encoded by itself. -/
theorem encode_cons_of_not_high {u : UInt16} (h : high u = false) (x : List UInt16) :
    encode (u :: x) = (single u ++ (encode x).1, (encode x).2) := by
  cases x with
  | nil =>
    have hnot : ¬ high u = true := by rw [h]; exact Bool.false_ne_true
    change (if high u then ([], [u]) else (single u, [])) = _
    rw [if_neg hnot, encode, List.append_nil]
  | cons v x => rw [encode, h]; rfl

/-- What is given behind a part meets what was held back of it. -/
theorem encode_append (x y : List UInt16) :
    encode (x ++ y) =
      ((encode x).1 ++ (encode ((encode x).2 ++ y)).1, (encode ((encode x).2 ++ y)).2) := by
  induction x using encode.induct with
  | case1 => rfl
  | case2 u h => rw [encode, if_pos h]; rfl
  | case3 u h =>
    rw [Bool.not_eq_true] at h
    rw [List.singleton_append, encode_cons_of_not_high h, encode, h]
    rfl
  | case4 u v x h ih =>
    rw [List.cons_append, List.cons_append, encode, if_pos h, encode, if_pos h, ih]
    simp only [List.append_assoc]
  | case5 u v x h ih =>
    rw [List.cons_append, List.cons_append, encode, if_neg h, encode,
      if_neg h, ← List.cons_append, ih]
    simp only [List.append_assoc]

/-- A last half is held back. -/
theorem encode_held (x : List UInt16) : (encode x).2 = (x.getLast?.filter high).toList := by
  induction x using encode.induct with
  | case1 => rfl
  | case2 u h => rw [encode, if_pos h, List.getLast?_singleton, Option.filter_some_pos h]; rfl
  | case3 u h =>
    rw [encode, if_neg h, List.getLast?_singleton, Option.filter_some_neg (eq_false_of_ne_true h)]
    rfl
  | case4 u v x h ih =>
    have hv : high v = false := by
      rw [Bool.and_eq_true] at h
      by_contra hv
      rw [Bool.not_eq_false] at hv
      rw [not_low_of_high hv] at h
      exact Bool.false_ne_true h.2
    rw [encode, if_pos h, ih]
    cases x with
    | nil =>
      rw [List.getLast?_cons_cons, List.getLast?_singleton, Option.filter_some_neg hv]
      rfl
    | cons w x => rw [List.getLast?_cons_cons, List.getLast?_cons_cons]
  | case5 u v x h ih => rw [encode, if_neg h, ih, List.getLast?_cons_cons]

/-- Nothing is held back of units that do not end with a high surrogate. -/
theorem held_of_not_endsHigh {x : List UInt16} (h : endsHigh x = false) : (encode x).2 = [] := by
  rw [encode_held]
  rw [endsHigh] at h
  cases hlast : x.getLast? with
  | none => rfl
  | some u =>
    rw [hlast] at h
    have hu : high u = false := h
    rw [Option.filter_some_neg hu]
    rfl

/-- A high surrogate at the end is held back. -/
theorem held_of_endsHigh {x : List UInt16} (h : endsHigh x = true) :
    ∃ u, high u = true ∧ (encode x).2 = [u] := by
  rw [encode_held]
  rw [endsHigh] at h
  cases hlast : x.getLast? with
  | none =>
    rw [hlast] at h
    cases h
  | some u =>
    rw [hlast] at h
    have hu : high u = true := h
    exact ⟨u, hu, by rw [Option.filter_some_pos hu]; rfl⟩

/-- What is held back is held back again. -/
theorem encode_of_held (x : List UInt16) : encode (encode x).2 = ([], (encode x).2) := by
  cases hends : endsHigh x with
  | false =>
    rw [held_of_not_endsHigh hends]
    rfl
  | true =>
    obtain ⟨u, hu, hheld⟩ := held_of_endsHigh hends
    rw [hheld, encode, if_pos hu]

end Encode

section Parts

/-- A unit has at least one byte. -/
theorem single_ne_nil (u : UInt16) : single u ≠ [] := by
  unfold single point
  split_ifs
  all_goals exact List.cons_ne_nil _ _

/-- The bytes of a pair are no question marks. -/
theorem replacement_not_mem_pair (u v : UInt16) (hu : high u = true) : replacement ∉ pair u v := by
  have hbyte {n : ℕ} (hge : 0x80 ≤ n) (hlt : n < 0x100) : replacement ≠ UInt8.ofNat n := by
    intro h
    have hnat := congrArg UInt8.toNat h
    rw [UInt8.toNat_ofNat'] at hnat
    change 0x3f = n % 2 ^ 8 at hnat
    omega
  have hhigh : u.toNat < 0xdc00 := by
    rw [high, Bool.and_eq_true, decide_eq_true_eq, decide_eq_true_eq] at hu
    exact UInt16.lt_iff_toNat_lt.mp hu.2
  have hlow : v.toNat < 2 ^ 16 := v.toNat_lt
  unfold pair point
  rw [if_neg (by omega), if_neg (by omega), if_neg (by omega)]
  simp only [List.mem_cons, List.not_mem_nil, or_false, not_or]
  refine ⟨hbyte ?_ ?_, hbyte ?_ ?_, hbyte ?_ ?_, hbyte ?_ ?_⟩
  all_goals omega

/-- A unit that is no high surrogate stands by itself. -/
theorem utf8_cons_of_not_high {u : UInt16} (h : high u = false) (x : List UInt16) :
    utf8 (u :: x) = single u ++ utf8 x := by
  rw [utf8, encode_cons_of_not_high h, utf8, List.append_assoc]

/-- A unit in front of one that is no low surrogate stands by itself. -/
theorem utf8_cons_cons_of_not_low {u v : UInt16} (h : low v = false) (x : List UInt16) :
    utf8 (u :: v :: x) = single u ++ utf8 (v :: x) := by
  rw [utf8, encode, h, Bool.and_false, if_neg Bool.false_ne_true, utf8, List.append_assoc]

/-- A high surrogate and a low one stand for one character. -/
theorem utf8_pair {u v : UInt16} (hu : high u = true) (hv : low v = true) (x : List UInt16) :
    utf8 (u :: v :: x) = pair u v ++ utf8 x := by
  rw [utf8, encode, hu, hv, Bool.and_true, if_pos rfl, utf8, List.append_assoc]

/-- Units that do not end with a high surrogate are all encoded. -/
theorem utf8_of_not_endsHigh {x : List UInt16} (h : endsHigh x = false) :
    utf8 x = (encode x).1 := by
  rw [utf8, held_of_not_endsHigh h, List.flatMap_nil, List.append_nil]

/-- A high surrogate at the end is replaced. -/
theorem utf8_of_endsHigh {x : List UInt16} (h : endsHigh x = true) :
    utf8 x = (encode x).1 ++ [replacement] := by
  obtain ⟨u, hu, hheld⟩ := held_of_endsHigh h
  rw [utf8, hheld, List.flatMap_singleton, single, hu, Bool.true_or, if_pos rfl]

/-- Something has at least one byte. -/
theorem utf8_ne_nil {x : List UInt16} (h : x ≠ []) : utf8 x ≠ [] := by
  cases x with
  | nil => exact absurd rfl h
  | cons u x =>
    have happend {y : List UInt8} : single u ++ y ≠ [] := by
      intro hnil
      exact single_ne_nil u (List.append_eq_nil_iff.mp hnil).1
    cases hu : high u with
    | false =>
      rw [utf8_cons_of_not_high hu]
      exact happend
    | true =>
      cases x with
      | nil =>
        have hends : endsHigh [u] = true := hu
        rw [utf8_of_endsHigh hends]
        exact List.append_ne_nil_of_right_ne_nil _ (List.cons_ne_nil _ _)
      | cons v x =>
        cases hv : low v with
        | false =>
          rw [utf8_cons_cons_of_not_low hv]
          exact happend
        | true =>
          rw [utf8_pair hu hv]
          have hpair : pair u v ≠ [] := by
            unfold pair point
            split_ifs
            all_goals exact List.cons_ne_nil _ _
          exact List.append_ne_nil_of_left_ne_nil hpair _

/-- What was held back stands in front of the next part. -/
theorem utf8_append (x y : List UInt16) :
    utf8 (x ++ y) = (encode x).1 ++ utf8 ((encode x).2 ++ y) := by
  rw [utf8, encode_append, utf8, List.append_assoc]

/-- Parts that cut no pair may be encoded for themselves. -/
theorem utf8_append_of_uncut {x y : List UInt16} (h : ¬ (endsHigh x = true ∧ beginsLow y = true)) :
    utf8 (x ++ y) = utf8 x ++ utf8 y := by
  rw [utf8_append]
  cases hends : endsHigh x with
  | false => rw [held_of_not_endsHigh hends, List.nil_append, utf8_of_not_endsHigh hends]
  | true =>
    obtain ⟨u, hu, hheld⟩ := held_of_endsHigh hends
    have hmark : single u = [replacement] := by rw [single, hu, Bool.true_or, if_pos rfl]
    rw [utf8_of_endsHigh hends, hheld, List.singleton_append, List.append_assoc, ← hmark]
    cases y with
    | nil =>
      have hends' : endsHigh [u] = true := hu
      have hempty : (encode [u]).1 = [] := by rw [encode, if_pos hu]
      rw [utf8_of_endsHigh hends', hempty, hmark]
      rfl
    | cons v y =>
      have hv : low v = false := by
        cases hv : low v with
        | false => rfl
        | true => exact absurd ⟨hends, hv⟩ h
      rw [utf8_cons_cons_of_not_low hv]

/-- Where a pair is cut, two question marks are put for it. -/
theorem count_utf8_of_cut {x y : List UInt16} (hx : endsHigh x = true) (hy : beginsLow y = true) :
    (utf8 (x ++ y)).count replacement + 2 = (utf8 x ++ utf8 y).count replacement := by
  obtain ⟨u, hu, hheld⟩ := held_of_endsHigh hx
  cases y with
  | nil => cases hy
  | cons v y =>
    have hv : low v = true := hy
    have hnot : high v = false := by
      cases hhigh : high v with
      | false => rfl
      | true =>
        rw [not_low_of_high hhigh] at hv
        cases hv
    have hmark : single v = [replacement] := by rw [single, hv, Bool.or_true, if_pos rfl]
    have hpair : (pair u v).count replacement = 0 :=
      List.count_eq_zero.mpr (replacement_not_mem_pair u v hu)
    rw [utf8_append, hheld, List.singleton_append, utf8_pair hu hv, utf8_of_endsHigh hx,
      utf8_cons_of_not_high hnot, hmark]
    simp only [List.count_append, hpair, List.count_singleton_self]
    omega

/-- No part ends in the middle of a pair. -/
def Uncut (parts : List (List UInt16)) : Prop :=
  parts.IsChain fun x y => ¬ (endsHigh x = true ∧ beginsLow y = true)

/-- A text begins as its first part does. -/
theorem beginsLow_flatten {x : List UInt16} (hx : x ≠ []) (parts : List (List UInt16)) :
    beginsLow (x :: parts).flatten = beginsLow x := by
  rw [beginsLow, List.flatten_cons, List.head?_append_of_ne_nil _ hx, beginsLow]

/-- Parts that are encoded for themselves have no fewer question marks than their text, and just as
many exactly when no pair is cut; then they have the same bytes. -/
theorem utf8_flatten {parts : List (List UInt16)} (h : ∀ x ∈ parts, x ≠ []) :
    (Uncut parts → utf8 parts.flatten = parts.flatMap utf8) ∧
      (utf8 parts.flatten).count replacement ≤ (parts.flatMap utf8).count replacement ∧
      ((parts.flatMap utf8).count replacement ≤ (utf8 parts.flatten).count replacement →
        Uncut parts) := by
  induction parts with
  | nil => exact ⟨fun _ => rfl, Nat.le_refl _, fun _ => List.IsChain.nil⟩
  | cons x parts ih =>
    obtain ⟨hsame, hle, huncut⟩ := ih fun y hy => h y (List.mem_cons_of_mem _ hy)
    have hchain : Uncut (x :: parts) ↔ (¬ (endsHigh x = true ∧ beginsLow parts.flatten = true)) ∧
        Uncut parts := by
      cases parts with
      | nil =>
        refine iff_of_true (List.IsChain.singleton _) ⟨?_, List.IsChain.nil⟩
        rintro ⟨-, hlow⟩
        cases hlow
      | cons y parts =>
        rw [beginsLow_flatten (h y (List.mem_cons_of_mem _ List.mem_cons_self))]
        exact List.isChain_cons_cons
    rw [List.flatten_cons, List.flatMap_cons, List.count_append, hchain]
    by_cases hcut : endsHigh x = true ∧ beginsLow parts.flatten = true
    · have hcount := count_utf8_of_cut hcut.1 hcut.2
      rw [List.count_append] at hcount
      refine ⟨fun huncut => absurd hcut huncut.1, by omega, fun hle' => ?_⟩
      omega
    · have heq := utf8_append_of_uncut hcut
      rw [heq, List.count_append]
      refine ⟨fun h => by rw [hsame h.2], by omega, fun hle' => ⟨hcut, huncut (by omega)⟩⟩

/-- A text ends as its last part does. -/
theorem endsHigh_flatten {parts : List (List UInt16)} (h : ∀ x ∈ parts, x ≠ []) :
    endsHigh parts.flatten = parts.getLast?.any endsHigh := by
  rcases List.eq_nil_or_concat parts with rfl | ⟨init, last, rfl⟩
  · rfl
  · rw [List.concat_eq_append] at h ⊢
    have hlast : last ≠ [] := h last List.mem_concat_self
    rw [List.flatten_append, List.flatten_singleton, List.getLast?_append,
      List.getLast?_singleton, Option.some_or, endsHigh, List.getLast?_append_of_ne_nil _ hlast]
    rfl

/-- What is written of some parts in a row is all parts, each encoded for itself, exactly when there
are no others, no pair is cut and nothing is held back. -/
theorem encode_flatten_iff {lost parts rest : List (List UInt16)}
    (hlost : ∀ x ∈ lost, x ≠ []) (hparts : ∀ x ∈ parts, x ≠ []) (hrest : ∀ x ∈ rest, x ≠ []) :
    (encode parts.flatten).1 = (lost ++ parts ++ rest).flatMap utf8 ↔
      lost = [] ∧ rest = [] ∧ Uncut parts ∧ ∀ last ∈ parts.getLast?, endsHigh last = false := by
  obtain ⟨hsame, hle, huncut⟩ := utf8_flatten hparts
  have hends : endsHigh parts.flatten = false ↔ ∀ last ∈ parts.getLast?, endsHigh last = false := by
    rw [endsHigh_flatten hparts, Option.any_eq_false]
    exact Iff.rfl
  have hempty {others : List (List UInt16)} (hothers : ∀ x ∈ others, x ≠ [])
      (hnil : others.flatMap utf8 = []) : others = [] := by
    cases others with
    | nil => rfl
    | cons x others =>
      rw [List.flatMap_cons, List.append_eq_nil_iff] at hnil
      exact absurd hnil.1 (utf8_ne_nil (hothers x List.mem_cons_self))
  rw [List.flatMap_append, List.flatMap_append, ← hends]
  constructor
  · intro h
    have hcount := congrArg (List.count replacement) h
    rw [List.count_append, List.count_append] at hcount
    cases hhigh : endsHigh parts.flatten with
    | true =>
      -- the half that is held back is a question mark that is not written
      have hheld := congrArg (List.count replacement) (utf8_of_endsHigh hhigh)
      rw [List.count_append, List.count_singleton_self] at hheld
      omega
    | false =>
      rw [← utf8_of_not_endsHigh hhigh] at h hcount
      have hchain := huncut (by omega)
      have hlength := congrArg List.length h
      rw [hsame hchain, List.length_append, List.length_append] at hlength
      have hfirst : (lost.flatMap utf8).length = 0 := by omega
      have hlast : (rest.flatMap utf8).length = 0 := by omega
      exact ⟨hempty hlost (List.length_eq_zero_iff.mp hfirst),
        hempty hrest (List.length_eq_zero_iff.mp hlast), hchain, rfl⟩
  · rintro ⟨rfl, rfl, hchain, hhigh⟩
    rw [← utf8_of_not_endsHigh hhigh, hsame hchain, List.flatMap_nil, List.nil_append,
      List.append_nil]

end Parts

end Utf16
