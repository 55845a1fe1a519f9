import XposedJniTrace.Trace.StringHandler

/-!
# The libc tracer is transparent

What a call of a wrapper leaves against a direct call of the function, and exactly when the two
agree: for a caller that does not match, the wrappers call the original once and return its result,
but those of variadic functions pass on one argument only. For a caller that matches, no run goes on
behind a line, which every wrapper writes unless `read` or `write` fails.
-/

namespace XposedJniTrace.stringHandlerHook

open Mylibc Java Variadic

variable {abi : Abi} {State : Type}

/-- A call of a hooked function, as a caller makes it and the function accepts it. -/
structure Request (libc : Libc abi State) (state : State) where
  fn : Fn abi.VaList
  start : abi.Start
  args : List Arg
  named : abi.Named fn.named start
  fixed : fn.isVariadic = false → args = []
  accepted : libc.kinds fn state <+: args.map Arg.kind

/-- The variadic arguments, laid out. -/
def Request.va {libc : Libc abi State} {state : State}
    (request : Request libc state) : abi.VaList :=
  abi.place request.start request.args

/-- The wrapper calls the original once, with all the arguments that it received, and returns its
result; result and state are those of a direct call. What an original variadic function finds where
nothing is put for it is anything. -/
def Transparent (libc : Libc abi State) (cfg : Config) (caller : CString) (stack : List UInt8)
    (m : Machine abi State) (request : Request libc m.state) : Prop :=
  ∀ next, abi.Named request.fn.named next →
    ∃ call m', hook libc ⟨cfg, caller, next, stack⟩ request.va request.fn m = some (call.ret, m') ∧
      m'.calls = m.calls ++ [call] ∧ call.fn = request.fn ∧
      abi.draws (request.args.map Arg.kind) (abi.place next call.variadic) =
        request.args.map Arg.word ∧
      (call.ret, m'.state) = libc.call request.fn request.va m.state

/-- The call writes no line: it fails, and its wrapper looks at that first. -/
def Fn.Silent {VaList : Type} (fn : Fn VaList) (ret : ℤ) : Prop :=
  match fn with
  | read .. | write .. => ret = -1
  | _ => False

variable (libc : Libc abi State) (env : Env abi)

/-- The caller matches. -/
def Env.listed (m : Machine abi State) : Bool := (isLister env.cfg m.match_so_name env.caller).1

/-- What `isLister` leaves. -/
def Env.stored (m : Machine abi State) : Machine abi State :=
  { m with match_so_name := (isLister env.cfg m.match_so_name env.caller).2 }

/-- What a call of the original leaves. -/
def Machine.called (m : Machine abi State) (fn : Fn abi.VaList) (variadic : List Arg) :
    Machine abi State :=
  let after := libc.call fn (abi.place env.next variadic) m.state
  { m with state := after.2, calls := m.calls ++ [⟨fn, variadic, after.1⟩] }

/-! ## Runs -/

section Runs

variable {α β : Type} {libc : Libc abi State} {env : Env abi} {m : Machine abi State}

/-- One step behind another. -/
theorem run_bind (first : Hook abi State α) (second : α → Hook abi State β)
    (m : Machine abi State) :
    (first >>= second) m = (first m).bind fun result => second result.1 result.2 := rfl

/-- A call of an original function returns what libc answers. -/
theorem run_orig (fn : Fn abi.VaList) (variadic : List Arg) (m : Machine abi State) :
    orig libc env fn variadic m =
      some ((libc.call fn (abi.place env.next variadic) m.state).1,
        m.called libc env fn variadic) := rfl

/-- A wrapper tells callers apart. -/
theorem run_checkLister (listed unlisted : Hook abi State α) (m : Machine abi State) :
    (do if ← checkLister env then listed else unlisted) m =
      if env.listed m = true then listed (env.stored m) else unlisted (env.stored m) := by
  rw [run_bind]
  change (if env.listed m = true then listed else unlisted) (env.stored m) = _
  split_ifs <;> rfl

/-- A run ends with its first part, or with the second behind whatever the first leaves. -/
theorem bind_eq_none {first : Hook abi State α} {second : α → Hook abi State β}
    {m : Machine abi State}
    (h : ∀ a m', first m = some (a, m') → second a m' = none) : (first >>= second) m = none := by
  rw [run_bind]
  cases hfirst : first m with
  | none => rfl
  | some left => exact h left.1 left.2 hfirst

/-- What is made of pieces with a line break is no empty text. -/
theorem strInfo_ne_nil {pieces : List Piece} (hline : lit "\n" ∈ pieces) {text : Text}
    {m m' : Machine abi State}
    (h : strInfo libc pieces m = some (text, m')) : text ≠ [] := by
  obtain ⟨texts, htexts, heq⟩ := Option.map_eq_some_iff.mp h
  obtain ⟨rfl, -⟩ := Prod.mk.inj heq
  have hmem : ascii "\n" ∈ texts := by
    clear h heq
    induction pieces generalizing texts with
    | nil => cases hline
    | cons piece rest ih =>
      rw [List.mapM_cons] at htexts
      obtain ⟨first, hfirst, hrest⟩ := Option.bind_eq_some_iff.mp htexts
      obtain ⟨others, hothers, heq⟩ := Option.bind_eq_some_iff.mp hrest
      obtain rfl := Option.some.inj heq
      rcases List.mem_cons.mp hline with rfl | hline
      · obtain rfl := Option.some.inj hfirst
        exact List.mem_cons_self
      · exact List.mem_cons_of_mem first (ih hline others hothers)
  intro hnil
  have hall := List.flatten_eq_nil_iff.mp hnil _ hmem
  exact absurd hall (by decide)

/-- No run goes on behind a message with text. -/
theorem run_write {msg : Text} (hmsg : msg ≠ []) (next : Unit → Hook abi State α)
    (m : Machine abi State) :
    (write msg >>= next) m = none := by
  rw [run_bind, write, if_neg hmsg, Option.bind_none]

/-- No run goes on behind a line that is made of pieces. -/
theorem run_line {pieces : List Piece} (hline : lit "\n" ∈ pieces) (next : Unit → Hook abi State α)
    (m : Machine abi State) :
    (do
      let info ← strInfo libc pieces
      write info >>= next) m = none := by
  apply bind_eq_none
  intro text m' hinfo
  exact run_write (strInfo_ne_nil hline hinfo) next m'

/-- For a caller that does not match, the original is called and nothing else. -/
theorem unlisted_eq {listed : Hook abi State ℤ} {fn : Fn abi.VaList} {variadic : List Arg}
    (h : ¬ env.listed m = true) :
    (do if ← checkLister env then listed else orig libc env fn variadic) m =
      some ((libc.call fn (abi.place env.next variadic) m.state).1,
        (env.stored m).called libc env fn variadic) := by
  rw [run_checkLister, if_neg h, run_orig]
  rfl

/-- Called by a listed caller, a wrapper of the usual shape does not return: its report is not
empty. -/
theorem forward_listed (fn : Fn abi.VaList) (variadic : List Arg) {line : ℤ → List Piece}
    (h : env.listed m = true) (hline : ∀ ret, lit "\n" ∈ line ret) :
    forward libc env fn variadic line m = none := by
  rw [forward, run_checkLister, if_pos h, run_bind, run_orig, Option.bind_some]
  exact run_line (hline _) _ _

/-- The wrappers that report a call that does not fail return exactly where it fails. -/
theorem forwardUnlessFailed_listed (fn : Fn abi.VaList) {line : List Piece}
    (h : env.listed m = true)
    (hline : lit "\n" ∈ line) :
    forwardUnlessFailed libc env fn line m =
      if (libc.call fn (abi.place env.next []) m.state).1 = -1 then
        some ((libc.call fn (abi.place env.next []) m.state).1,
          (env.stored m).called libc env fn [])
      else none := by
  rw [forwardUnlessFailed, run_checkLister, if_pos h, run_bind, run_orig, Option.bind_some]
  by_cases hfailed : (libc.call fn (abi.place env.next []) m.state).1 = -1
  · rw [if_pos hfailed]
    exact congrFun (if_pos hfailed) _
  · rw [if_neg hfailed]
    exact (congrFun (if_neg hfailed) _).trans (run_line hline _ _)

/-- The wrapper of `strdup` does not return to a listed caller. -/
theorem strdup_listed (s : ℕ) (h : env.listed m = true) : new_strdup libc env s m = none := by
  rw [new_strdup, run_checkLister, if_pos h]
  exact run_line (by simp) _ _

/-- The wrapper of `fgets` does not return to a listed caller. -/
theorem fgets_listed (buf : ℕ) (size : ℤ) (fp : ℕ) (h : env.listed m = true) :
    new_fgets libc env buf size fp m = none := by
  rw [new_fgets, run_checkLister, if_pos h, run_bind, run_orig, Option.bind_some]
  exact run_line (by simp) _ _

/-- The wrapper of `memcpy` does not return to a listed caller. -/
theorem memcpy_listed (destin source n : ℕ) (h : env.listed m = true) :
    new_memcpy libc env destin source n m = none := by
  rw [new_memcpy, run_checkLister, if_pos h]
  apply bind_eq_none
  intro origStr m₁ horigStr
  rw [run_bind, run_orig, Option.bind_some]
  apply bind_eq_none
  intro info m₂ _
  apply bind_eq_none
  intro temp m₃ _
  apply bind_eq_none
  intro hex m₄ _
  apply run_write
  simp [ascii]

/-- What a wrapper passes on of the variadic arguments. -/
def passedOn (va : abi.VaList) (fn : Fn abi.VaList) : List Arg :=
  if fn.isVariadic then [⟨.general, (abi.draw .general va).1⟩] else []

/-- Called by a caller that is not listed, every wrapper does what the original does. -/
theorem hook_unlisted (va : abi.VaList) (fn : Fn abi.VaList) (h : ¬ env.listed m = true) :
    hook libc env va fn m = some ((libc.call fn (abi.place env.next (passedOn va fn)) m.state).1,
      (env.stored m).called libc env fn (passedOn va fn)) := by
  cases fn <;> exact unlisted_eq h

/-- For a caller that matches, a call that writes no line is a call of the original. -/
theorem hook_silent (va : abi.VaList) (fn : Fn abi.VaList) (h : env.listed m = true)
    (hsilent : fn.Silent (libc.call fn (abi.place env.next (passedOn va fn)) m.state).1) :
    hook libc env va fn m = some ((libc.call fn (abi.place env.next (passedOn va fn)) m.state).1,
      (env.stored m).called libc env fn (passedOn va fn)) := by
  cases fn with
  | read fd buf count => exact (forwardUnlessFailed_listed _ h (by simp)).trans (if_pos hsilent)
  | write fd buf count => exact (forwardUnlessFailed_listed _ h (by simp)).trans (if_pos hsilent)
  | _ => exact hsilent.elim

/-- For a caller that matches, every other call ends where its line is written. -/
theorem hook_listed (va : abi.VaList) (fn : Fn abi.VaList) (h : env.listed m = true)
    (hloud : ¬ fn.Silent (libc.call fn (abi.place env.next (passedOn va fn)) m.state).1) :
    hook libc env va fn m = none := by
  cases fn with
  | read fd buf count => exact (forwardUnlessFailed_listed _ h (by simp)).trans (if_neg hloud)
  | write fd buf count => exact (forwardUnlessFailed_listed _ h (by simp)).trans (if_neg hloud)
  | fgets buf size fp => exact fgets_listed buf size fp h
  | strdup s => exact strdup_listed s h
  | memcpy destin source n => exact memcpy_listed destin source n h
  | _ => exact forward_listed _ _ h (by simp)

end Runs

/-! ## Transparency -/

section Requests

variable {libc : Libc abi State} {cfg : Config} {caller : CString} {stack : List UInt8}
  {m : Machine abi State}

/-- Where everything is passed on, a call of the original is a direct call: its format asks for
nothing that is not there. -/
theorem call_of_draws (request : Request libc m.state) {va : abi.VaList}
    (h : abi.draws (request.args.map Arg.kind) va = request.args.map Arg.word) :
    libc.call request.fn va m.state = libc.call request.fn request.va m.state := by
  have hall : abi.draws (request.args.map Arg.kind) va =
      abi.draws (request.args.map Arg.kind) request.va := by
    rw [h, Request.va, abi.draws_place]
  rw [Libc.call, Libc.call, abi.draws_of_prefix request.accepted hall]

/-- Everything is passed on exactly when there is at most one variadic argument, and that one where
a pointer would be. -/
theorem passedOn_iff (request : Request libc m.state) :
    (∀ next, abi.Named request.fn.named next →
      abi.draws (request.args.map Arg.kind) (abi.place next (passedOn request.va request.fn)) =
        request.args.map Arg.word) ↔
      request.args = [] ∨ ∃ arg, request.args = [arg] ∧ abi.likePointer arg.kind = true := by
  cases hvariadic : request.fn.isVariadic with
  | false =>
    rw [request.fixed hvariadic]
    exact iff_of_true (fun _ _ => rfl) (.inl rfl)
  | true =>
    have hpassed : passedOn request.va request.fn =
        [⟨.general, (abi.draw .general request.va).1⟩] :=
      if_pos hvariadic
    rw [hpassed]
    exact abi.draws_forward_iff request.fn.named request.start request.args

/-- A wrapper against a direct call, for one way to lay out what it passes on. -/
theorem transparentAt_iff (request : Request libc m.state) (next : abi.Start) :
    (∃ call m', hook libc ⟨cfg, caller, next, stack⟩ request.va request.fn m = some (call.ret, m') ∧
      m'.calls = m.calls ++ [call] ∧ call.fn = request.fn ∧
      abi.draws (request.args.map Arg.kind) (abi.place next call.variadic) =
        request.args.map Arg.word ∧
      (call.ret, m'.state) = libc.call request.fn request.va m.state) ↔
    abi.draws (request.args.map Arg.kind) (abi.place next (passedOn request.va request.fn)) =
      request.args.map Arg.word ∧
    ((isLister cfg m.match_so_name caller).1 = true →
      request.fn.Silent (libc.call request.fn request.va m.state).1) := by
  let env : Env abi := ⟨cfg, caller, next, stack⟩
  let ret := (libc.call request.fn (abi.place next (passedOn request.va request.fn)) m.state).1
  have hone : (env.listed m = true → request.fn.Silent ret) →
      hook libc env request.va request.fn m =
      some (ret, (env.stored m).called libc env request.fn (passedOn request.va request.fn)) := by
    intro hsilent
    by_cases hlisted : env.listed m = true
    · exact hook_silent request.va request.fn hlisted (hsilent hlisted)
    · exact hook_unlisted request.va request.fn hlisted
  constructor
  · intro hcall
    obtain ⟨call, m', hrun, hcalls, -, hdraws, -⟩ := hcall
    have hsilent : env.listed m = true → request.fn.Silent ret := by
      intro hlisted
      by_contra hloud
      have hnone : hook libc env request.va request.fn m = none := hook_listed _ _ hlisted hloud
      cases hnone.symm.trans hrun
    have hrun' := (hone hsilent).symm.trans hrun
    have hm : (env.stored m).called libc env request.fn (passedOn request.va request.fn) = m' :=
      congrArg Prod.snd (Option.some.inj hrun')
    rw [← hm] at hcalls
    have hvariadic : passedOn request.va request.fn = call.variadic :=
      congrArg Call.variadic (List.cons.inj (List.append_cancel_left hcalls)).1
    rw [← hvariadic] at hdraws
    rw [← call_of_draws request hdraws]
    exact ⟨hdraws, hsilent⟩
  · intro hall
    obtain ⟨hdraws, hsilent⟩ := hall
    have hsame := call_of_draws request hdraws
    rw [← hsame] at hsilent
    exact ⟨⟨request.fn, passedOn request.va request.fn, ret⟩, _, hone hsilent, rfl, rfl,
      hdraws, hsame⟩

end Requests

/-- A wrapper is transparent exactly when there is at most one variadic argument, and that one where
a pointer would be, and a caller that matches makes a call of `read` or `write` that fails. -/
theorem transparent_iff (libc : Libc abi State) (cfg : Config) (caller : CString)
    (stack : List UInt8)
    (m : Machine abi State) (request : Request libc m.state) :
    Transparent libc cfg caller stack m request ↔
      (request.args = [] ∨ ∃ arg, request.args = [arg] ∧ abi.likePointer arg.kind = true) ∧
      ((isLister cfg m.match_so_name caller).1 = true →
        request.fn.Silent (libc.call request.fn request.va m.state).1) := by
  rw [Transparent, ← passedOn_iff request]
  simp only [transparentAt_iff]
  constructor
  · intro h
    exact ⟨fun next hnamed => (h next hnamed).1, (h request.start request.named).2⟩
  · intro h next hnamed
    exact ⟨h.1 next hnamed, h.2⟩

/-- `sprintf` leaves the numbers that its format asks for; other functions leave everything. -/
def pairWriter : Libc arm64 (List ℕ) where
  kinds fn _ :=
    match fn with
    | .sprintf .. => [.general, .general]
    | _ => []
  run fn args state :=
    match fn with
    | .sprintf .. => (args.length, args)
    | _ => (0, state)
  cstr _ _ := none
  bytes _ _ n := List.replicate n 0
  bytes_length _ _ _ := List.length_replicate

/-- `sprintf(1, "%d %d", 7, 8)` -/
def writePair : Request pairWriter [] where
  fn := .sprintf 1 2
  start := Arm64.behind 2 0
  args := [⟨.general, 7⟩, ⟨.general, 8⟩]
  named := ⟨rfl, rfl⟩
  fixed := nofun
  accepted := List.prefix_refl _

/-- No library is traced, and the second number is lost on the way. -/
theorem sprintf_drops :
    let m : Machine arm64 (List ℕ) := ⟨[], [], []⟩
    let caller := c_str (ascii "/data/app/libapp.so")
    (hook pairWriter ⟨⟨false, [], []⟩, caller, writePair.start, []⟩ writePair.va writePair.fn m).map
        (fun result => (result.1, result.2.state)) = some (2, [7, 0]) ∧
      pairWriter.call writePair.fn writePair.va [] = (2, [7, 8]) ∧
      ¬ Transparent pairWriter ⟨false, [], []⟩ caller [] m writePair := by
  intro m caller
  have hwrapped : (hook pairWriter ⟨⟨false, [], []⟩, caller, writePair.start, []⟩ writePair.va
      writePair.fn m).map
      (fun result => (result.1, result.2.state)) = some (2, [7, 0]) := by decide +kernel
  have hdirect : pairWriter.call writePair.fn writePair.va [] = (2, [7, 8]) := by decide +kernel
  refine ⟨hwrapped, hdirect, ?_⟩
  intro h
  obtain ⟨call, m', hrun, -, -, -, hsame⟩ := h writePair.start writePair.named
  rw [hrun, Option.map_some] at hwrapped
  have hstates := (Option.some.inj hwrapped).symm.trans (hsame.trans hdirect)
  revert hstates
  decide

end XposedJniTrace.stringHandlerHook
