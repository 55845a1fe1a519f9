import Mathlib.Data.Stream.Init
import Mathlib.Logic.Function.Basic
import Mathlib.Tactic.Ring

/-!
# Variadic arguments

How a calling convention lays variadic arguments out, and what drawing them one by one yields.
A convention comes with the law that drawing an argument by its own kind yields it and leaves the
layout of the others. On arm64, integers and pointers go to the general registers that are left,
floating-point numbers to theirs, and what does not fit to slots on the stack. On arm32, every
argument is a word or an aligned pair of words. What no argument was put into is unspecified.
-/

namespace Variadic

/-- What decides where an argument goes: a pointer or an integer of at most 32 bits, a 64-bit
integer, or a floating-point number, which is promoted to 64 bits. -/
inductive Kind where
  | general
  | wide
  | floating
  deriving DecidableEq

/-- An argument behind the ellipsis: its kind and its word. -/
structure Arg where
  kind : Kind
  word : ℕ
  deriving DecidableEq

/-- A calling convention. -/
structure Abi where
  /-- What `va_start` makes. -/
  VaList : Type
  /-- Where the first variadic argument goes, and what unspecified places hold. -/
  Start : Type
  /-- The start for the argument behind one. -/
  after : Start → Kind → Start
  place : Start → List Arg → VaList
  /-- `va_arg` at a type of the kind. -/
  draw : Kind → VaList → ℕ × VaList
  draw_place : ∀ start arg rest,
    draw arg.kind (place start (arg :: rest)) = (arg.word, place (after start arg.kind) rest)
  /-- The words that a pointer can be are below this one. -/
  bound : ℕ
  le_bound : 2 ^ 32 ≤ bound
  /-- The starts behind a number of named pointers. -/
  Named : ℕ → Start → Prop
  /-- The kinds that are drawn from where a pointer is. -/
  likePointer : Kind → Bool
  draw_likePointer : ∀ kind, likePointer kind = true → draw kind = draw .general
  general_likePointer : likePointer .general = true
  floating_likePointer : likePointer .floating = false
  /-- A kind that is not drawn from where a pointer is finds unspecified contents. -/
  draw_unspecified : ∀ kind, likePointer kind = false → ∀ w x,
    ∃ start, Named 3 start ∧ (draw kind (place start [⟨.general, w⟩])).1 = x
  /-- Behind any number of named pointers, they are unspecified in part at least. -/
  draw_differs : ∀ n kind, likePointer kind = false → ∀ w x,
    ∃ start, Named n start ∧ (draw kind (place start [⟨.general, w⟩])).1 ≠ x
  /-- Behind the last argument, too, contents are unspecified. -/
  draw_behind : ∀ n kind x,
    ∃ start, Named n start ∧ (draw kind (place (after start .general) [])).1 ≠ x

namespace Abi

variable (abi : Abi)

/-- Draw arguments of the given kinds, in order. -/
def draws : List Kind → abi.VaList → List ℕ
  | [], _ => []
  | kind :: kinds, va => (abi.draw kind va).1 :: draws kinds (abi.draw kind va).2

/-- Drawing arguments by their kinds yields all of them. -/
theorem draws_place (start : abi.Start) (args : List Arg) :
    abi.draws (args.map Arg.kind) (abi.place start args) = args.map Arg.word := by
  induction args generalizing start with
  | nil => rfl
  | cons arg rest ih => rw [List.map_cons, draws, abi.draw_place, ih, List.map_cons]

/-- Who draws fewer arguments does not see a difference behind them. -/
theorem draws_of_prefix {kinds all : List Kind} (h : kinds <+: all) {va va' : abi.VaList}
    (heq : abi.draws all va = abi.draws all va') : abi.draws kinds va = abi.draws kinds va' := by
  induction kinds generalizing all va va' with
  | nil => rfl
  | cons kind kinds ih =>
    obtain ⟨rest, rfl⟩ := h
    obtain ⟨hhead, htail⟩ := List.cons.inj heq
    rw [draws, draws, hhead, ih (List.prefix_append kinds rest) htail]

/-- Of what a caller passes, a function that takes one pointer and passes only that on has passed on
everything, whatever is unspecified, exactly when there was nothing else: at most one argument, and
that one where a pointer would be. -/
theorem draws_forward_iff (n : ℕ) (start : abi.Start) (args : List Arg) :
    (∀ next, abi.Named n next →
      abi.draws (args.map Arg.kind)
          (abi.place next [⟨.general, (abi.draw .general (abi.place start args)).1⟩]) =
        args.map Arg.word) ↔
      args = [] ∨ ∃ arg, args = [arg] ∧ abi.likePointer arg.kind = true := by
  cases args with
  | nil => exact iff_of_true (fun _ _ => rfl) (.inl rfl)
  | cons arg rest =>
    cases hlike : abi.likePointer arg.kind with
    | false =>
      refine iff_of_false ?_ ?_
      · intro h
        obtain ⟨next, hnext, hdiffer⟩ := abi.draw_differs n arg.kind hlike
          (abi.draw .general (abi.place start (arg :: rest))).1 arg.word
        exact hdiffer (List.cons.inj (h next hnext)).1
      · intro hargs
        rcases hargs with hnil | ⟨_, hone, hpointer⟩
        · cases hnil
        · rw [(List.cons.inj hone).1, hpointer] at hlike
          cases hlike
    | true =>
      have hdraw : abi.draw arg.kind = abi.draw .general := abi.draw_likePointer arg.kind hlike
      have hpointer : (abi.draw .general (abi.place start (arg :: rest))).1 = arg.word := by
        rw [← hdraw, abi.draw_place]
      have hnext : ∀ next, abi.draw arg.kind (abi.place next [⟨.general, arg.word⟩]) =
          (arg.word, abi.place (abi.after next .general) []) := by
        intro next
        rw [hdraw]
        exact abi.draw_place next ⟨.general, arg.word⟩ []
      simp only [hpointer, List.map_cons, draws, hnext, List.cons.injEq, true_and]
      cases rest with
      | nil => exact iff_of_true (fun _ _ => rfl) (.inr ⟨arg, ⟨rfl, rfl⟩, hlike⟩)
      | cons second rest =>
        refine iff_of_false ?_ ?_
        · intro h
          obtain ⟨next, hnext, hdiffer⟩ := abi.draw_behind n second.kind second.word
          exact hdiffer (List.cons.inj (h next hnext)).1
        · intro hargs
          rcases hargs with hnil | ⟨_, hone, -⟩
          · cases hnil
          · cases hone.2

end Abi

/-! ## arm64 -/

namespace Arm64

/-- The two banks of registers. -/
inductive Bank where
  | general
  | floating
  deriving DecidableEq

/-- The bank that an argument of a kind goes to. -/
def bank : Kind → Bank
  | .general => .general
  | .wide => .general
  | .floating => .floating

/-- The registers and the stack slots that are still to be drawn. -/
structure Save where
  regs : Bank → List ℕ
  stack : Stream' ℕ

/-- The numbers of registers that are left, and what they and the stack hold where no argument
is put. -/
structure Start where
  left : Bank → ℕ
  junk : Bank → Stream' ℕ
  stack : Stream' ℕ

/-- What is left of the registers behind an argument. -/
def after (start : Start) (kind : Kind) : Start :=
  { start with left := Function.update start.left (bank kind) (start.left (bank kind) - 1) }

/-- Put an argument in front of those behind it. -/
def push (start : Start) (arg : Arg) (save : Save) : Save :=
  if start.left (bank arg.kind) = 0 then { save with stack := .cons arg.word save.stack }
  else
    { save with
      regs := Function.update save.regs (bank arg.kind) (arg.word :: save.regs (bank arg.kind)) }

/-- The registers and the stack with some arguments in place. -/
def place : Start → List Arg → Save
  | start, [] => ⟨fun b => (start.junk b).take (start.left b), start.stack⟩
  | start, arg :: rest => push start arg (place (after start arg.kind) rest)

/-- `va_arg` of a kind: the word, and what is left. -/
def draw (kind : Kind) (save : Save) : ℕ × Save :=
  match save.regs (bank kind) with
  | [] => (save.stack.head, { save with stack := save.stack.tail })
  | w :: rest => (w, { save with regs := Function.update save.regs (bank kind) rest })

/-- Without registers of a bank left, no argument is in one. -/
theorem place_regs {start : Start} {b : Bank} (h : start.left b = 0) (args : List Arg) :
    (place start args).regs b = [] := by
  induction args generalizing start with
  | nil =>
    change (start.junk b).take (start.left b) = []
    rw [h, Stream'.take]
  | cons arg rest ih =>
    have hafter : (after start arg.kind).left b = 0 := by
      change Function.update start.left (bank arg.kind) (start.left (bank arg.kind) - 1) b = 0
      rw [Function.update_apply]
      split_ifs with hb
      · rw [← hb, h]
      · exact h
    rw [place, push]
    split_ifs with hleft
    · exact ih hafter
    · have hb : b ≠ bank arg.kind := by
        intro heq
        exact hleft (heq ▸ h)
      exact (Function.update_of_ne hb _ _).trans (ih hafter)

/-- The first argument is what is drawn, and the others are left. -/
theorem draw_place (start : Start) (arg : Arg) (rest : List Arg) :
    draw arg.kind (place start (arg :: rest)) = (arg.word, place (after start arg.kind) rest) := by
  rw [place, push]
  split_ifs with hleft
  · have hregs : (place (after start arg.kind) rest).regs (bank arg.kind) = [] := by
      apply place_regs
      change Function.update start.left _ (start.left (bank arg.kind) - 1) (bank arg.kind) = 0
      rw [Function.update_self, hleft]
    simp only [draw, hregs]
    rfl
  · simp only [draw, Function.update_self, Function.update_idem, Function.update_eq_self]

/-- All eight registers of each bank are there for arguments; named pointers take general ones. -/
def Named (n : ℕ) (start : Start) : Prop :=
  start.left .general = 8 - n ∧ start.left .floating = 8

/-- The registers behind named pointers, everything unspecified being the same. -/
def behind (n x : ℕ) : Start :=
  ⟨fun | .general => 8 - n | .floating => 8, fun _ => .const x, .const x⟩

/-- No floating-point register was set for a call that passes a pointer. -/
theorem draw_floating (n w x : ℕ) :
    (draw .floating (place (behind n x) [⟨.general, w⟩])).1 = x := by
  rw [place, push]
  split_ifs <;> rfl

/-- Nothing was put behind the last argument. -/
theorem draw_behind (n : ℕ) (kind : Kind) (x : ℕ) :
    (draw kind (place (after (behind n x) .general) [])).1 = x := by
  rw [place, draw]
  change (match Stream'.take ((after (behind n x) .general).left (bank kind)) (.const x) with
    | [] => _
    | w :: rest => _ : ℕ × Save).1 = x
  cases (after (behind n x) .general).left (bank kind) with
  | zero => rfl
  | succ left => rfl

end Arm64

/-- The calling convention of `arm64` -/
def arm64 : Abi where
  VaList := Arm64.Save
  Start := Arm64.Start
  after := Arm64.after
  place := Arm64.place
  draw := Arm64.draw
  draw_place := Arm64.draw_place
  bound := 2 ^ 64
  le_bound := by decide
  Named := Arm64.Named
  likePointer
    | .general | .wide => true
    | .floating => false
  draw_likePointer
    | .general, _ => rfl
    | .wide, _ => rfl
  general_likePointer := rfl
  floating_likePointer := rfl
  draw_unspecified
    | .floating, _, w, x => ⟨Arm64.behind 3 x, ⟨rfl, rfl⟩, Arm64.draw_floating 3 w x⟩
  draw_differs
    | n, .floating, _, w, x =>
      ⟨Arm64.behind n (x + 1), ⟨rfl, rfl⟩,
        (Arm64.draw_floating n w (x + 1)).trans_ne (Nat.succ_ne_self x)⟩
  draw_behind n kind x :=
    ⟨Arm64.behind n (x + 1), ⟨rfl, rfl⟩,
      (Arm64.draw_behind n kind (x + 1)).trans_ne (Nat.succ_ne_self x)⟩

/-! ## arm32 -/

namespace Arm32

/-- The words that are still to be drawn, and the index of the first one from an address that is
aligned for a pair. -/
structure Words where
  pos : ℕ
  words : Stream' ℕ

/-- The index of the first word, and what the padding and the words behind the arguments hold. -/
structure Start where
  pos : ℕ
  pad : ℕ
  junk : Stream' ℕ

/-- Where the next argument goes, behind one of a kind. -/
def after (start : Start) : Kind → Start
  | .general => { start with pos := start.pos + 1 }
  | .wide | .floating => { start with pos := start.pos + start.pos % 2 + 2 }

/-- Put an argument in front of those behind it. -/
def push (start : Start) (arg : Arg) (rest : Stream' ℕ) : Words :=
  match arg.kind with
  | .general => ⟨start.pos, .cons arg.word rest⟩
  | .wide | .floating =>
    let pair := Stream'.cons (arg.word % 2 ^ 32) (.cons (arg.word / 2 ^ 32) rest)
    ⟨start.pos, if start.pos % 2 = 0 then pair else .cons start.pad pair⟩

/-- The words with some arguments in place. -/
def place : Start → List Arg → Words
  | start, [] => ⟨start.pos, start.junk⟩
  | start, arg :: rest => push start arg (place (after start arg.kind) rest).words

/-- `va_arg` of a kind: the word, and what is left. -/
def draw (kind : Kind) (va : Words) : ℕ × Words :=
  match kind with
  | .general => (va.words.head, ⟨va.pos + 1, va.words.tail⟩)
  | .wide | .floating =>
    let aligned := if va.pos % 2 = 0 then va.words else va.words.tail
    (aligned.head + 2 ^ 32 * aligned.tail.head, ⟨va.pos + va.pos % 2 + 2, aligned.tail.tail⟩)

/-- The arguments start where they are put. -/
theorem place_pos (start : Start) (args : List Arg) : (place start args).pos = start.pos := by
  cases args with
  | nil => rfl
  | cons arg rest =>
    obtain ⟨kind, w⟩ := arg
    cases kind <;> rfl

/-- An aligned pair, drawn behind the padding in front of it. -/
theorem draw_pair (start : Start) (w : ℕ) (rest : Words)
    (h : rest.pos = start.pos + start.pos % 2 + 2) :
    draw .wide (push start ⟨.wide, w⟩ rest.words) = (w, rest) := by
  have hw : w % 2 ^ 32 + 2 ^ 32 * (w / 2 ^ 32) = w := Nat.mod_add_div w (2 ^ 32)
  simp only [draw, push]
  split_ifs with hpos
  · simp only [Stream'.head_cons, Stream'.tail_cons, hw, ← h]
  · simp only [Stream'.head_cons, Stream'.tail_cons, hw, ← h]

/-- The first argument is what is drawn, and the others are left. -/
theorem draw_place (start : Start) (arg : Arg) (rest : List Arg) :
    draw arg.kind (place start (arg :: rest)) = (arg.word, place (after start arg.kind) rest) := by
  have hpos := place_pos (after start arg.kind) rest
  obtain ⟨kind, w⟩ := arg
  cases kind with
  | general =>
    have hnext : (place (after start .general) rest).pos = start.pos + 1 := hpos
    change (w, Words.mk (start.pos + 1) _) = (w, place (after start .general) rest)
    rw [← hnext]
    rfl
  | wide => exact draw_pair start w _ hpos
  | floating => exact draw_pair start w _ hpos

/-- The words of the first argument registers and those on the stack follow one another. -/
def Named (n : ℕ) (start : Start) : Prop := start.pos = n

/-- From an odd index, a pair is drawn behind one word of padding. -/
theorem draw_of_odd {va : Words} (h : va.pos % 2 = 1) :
    (draw .wide va).1 = va.words.tail.head + 2 ^ 32 * va.words.tail.tail.head := by
  have hodd : ¬ va.pos % 2 = 0 := by
    rw [h]
    exact Nat.one_ne_zero
  simp only [draw, if_neg hodd]

/-- The pair behind a pointer in the last register is on the stack, where nothing was put. -/
theorem draw_stack (w x : ℕ) :
    ∃ start, Named 3 start ∧ (draw .wide (place start [⟨.general, w⟩])).1 = x := by
  let pair : Stream' ℕ := .cons (x % 2 ^ 32) (.cons (x / 2 ^ 32) (.const 0))
  have hodd : (place ⟨3, 0, pair⟩ [⟨.general, w⟩]).pos % 2 = 1 := by
    rw [place_pos]
    change 3 % 2 = 1
    decide
  exact ⟨⟨3, 0, pair⟩, rfl, (draw_of_odd hodd).trans (Nat.mod_add_div x (2 ^ 32))⟩

/-- A pair behind a pointer has one word at least where nothing was put. -/
theorem draw_differs (n w x : ℕ) :
    (draw .wide (place ⟨n, 0, .const (x + 1)⟩ [⟨.general, w⟩])).1 ≠ x := by
  have hplace : place ⟨n, 0, .const (x + 1)⟩ [⟨.general, w⟩] = ⟨n, .cons w (.const (x + 1))⟩ := rfl
  rw [hplace, draw]
  split_ifs
  · change w + 2 ^ 32 * (x + 1) ≠ x
    omega
  · change x + 1 + 2 ^ 32 * (x + 1) ≠ x
    omega

/-- Nothing was put behind the last argument. -/
theorem draw_behind (n : ℕ) (kind : Kind) (x : ℕ) :
    (draw kind (place (after ⟨n, 0, .const (x + 1)⟩ .general) [])).1 ≠ x := by
  have hplace : place (after ⟨n, 0, .const (x + 1)⟩ .general) [] = ⟨n + 1, .const (x + 1)⟩ := rfl
  have hpair : (draw .wide ⟨n + 1, .const (x + 1)⟩).1 ≠ x := by
    rw [draw]
    split_ifs
    · change x + 1 + 2 ^ 32 * (x + 1) ≠ x
      omega
    · change x + 1 + 2 ^ 32 * (x + 1) ≠ x
      omega
  rw [hplace]
  cases kind with
  | general => exact Nat.succ_ne_self x
  | wide => exact hpair
  | floating => exact hpair

end Arm32

/-- The calling convention of `arm32` -/
def arm32 : Abi where
  VaList := Arm32.Words
  Start := Arm32.Start
  after := Arm32.after
  place := Arm32.place
  draw := Arm32.draw
  draw_place := Arm32.draw_place
  bound := 2 ^ 32
  le_bound := Nat.le_refl _
  Named := Arm32.Named
  likePointer
    | .general => true
    | .wide | .floating => false
  draw_likePointer
    | .general, _ => rfl
  general_likePointer := rfl
  floating_likePointer := rfl
  draw_unspecified
    | .wide, _ => Arm32.draw_stack
    | .floating, _ => Arm32.draw_stack
  draw_differs
    | n, .wide, _, w, x => ⟨⟨n, 0, .const (x + 1)⟩, rfl, Arm32.draw_differs n w x⟩
    | n, .floating, _, w, x => ⟨⟨n, 0, .const (x + 1)⟩, rfl, Arm32.draw_differs n w x⟩
  draw_behind n kind x := ⟨⟨n, 0, .const (x + 1)⟩, rfl, Arm32.draw_behind n kind x⟩

end Variadic
