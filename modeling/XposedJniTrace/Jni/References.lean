import XposedJniTrace.Jni.Transparent

/-!
# The local references of a native method

The calls of one native method with the tracer beside the same calls without it. What the app has
stays the same in step; the tracer keeps references of its own from the first call on that makes it
look at an object.
-/

namespace XposedJniTrace.Jni

open Mylibc (CString c_str ascii)
open Variadic (Abi)

variable {abi : Abi} {W : Type} (vm : JavaVM abi W) (setting : Setting)

/-- A native method calls a function that is hooked, or does something else to what it has: it
deletes a reference, calls a function that is not hooked, or clears an exception. -/
inductive Event (abi : Abi) (W : Type) where
  | call (caller : CString) {k : Kind} (request : AppRequest abi k)
  | other (effect : App W → Option (App W))

/-- An effect on what the app has. -/
def onApp (effect : App W → Option (App W)) : Hook abi W Unit := fun s =>
  (effect s.app).map fun app => ((), { s with app := app })

/-- An event behind the hooks. -/
def Event.traced (limit : ℕ) : Event abi W → Hook abi W Unit
  | call caller request => do
    let _ ← Jni.call vm setting limit caller request
  | other effect => onApp effect

/-- The event without the tracer. -/
def Event.plain : Event abi W → Hook abi W Unit
  | call _ request => do
    let _ ← appCall vm request.request
  | other effect => onApp effect

/-- The entries of the table of local references. -/
def State.live (s : State abi W) : List Ref := s.app.locals.map .word ++ s.own.locals

/-- The tracer leaks no local references: wherever the native method comes to without it, it comes
to with it, with the same references live. -/
def LeaksNothing (events : List (Event abi W)) (java : W) (locals : List ℕ) : Prop :=
  ∀ done, done <+: events → ∀ t, forM done (Event.plain vm) (enter java locals) = some ((), t) →
    ∃ limit s, forM done (Event.traced vm setting limit) (enter java locals) = some ((), s) ∧
      s.live.Perm t.live

/-- No call that a native method makes without the tracer is one that makes the tracer look at an
object. -/
def Quiet (events : List (Event abi W)) (java : W) (locals : List ℕ) : Prop :=
  ∀ (done : List (Event abi W)) (caller : CString) (k : Kind) (request : AppRequest abi k),
    done ++ [Event.call caller request] <+: events → ∀ s value t,
      forM done (Event.plain vm) (enter java locals) = some ((), s) →
      appCall vm request.request s = some (value, t) →
      setting.listed caller = false ∨ ¬ Describes vm s.app.java request

variable {vm setting}

section Runs

variable {step : Event abi W → Hook abi W Unit} {done : List (Event abi W)} {event : Event abi W}
  {s t : State abi W}

/-- One event more is one step more. -/
theorem run_concat (h : forM done step s = some ((), t)) :
    forM (done ++ [event]) step s = step event t := by
  rw [List.forM_append, run_bind h, List.forM_cons]
  exact congrFun (bind_pure (step event)) t

/-- A run that comes through came through the events in front of the last. -/
theorem run_of_concat (h : forM (done ++ [event]) step s = some ((), t)) :
    ∃ s₁, forM done step s = some ((), s₁) ∧ step event s₁ = some ((), t) := by
  cases hdone : forM done step s with
  | none =>
    rw [List.forM_append, run_bind_none hdone] at h
    cases h
  | some result =>
    obtain ⟨⟨⟩, s₁⟩ := result
    rw [run_concat hdone] at h
    exact ⟨s₁, rfl, h⟩

/-- A value that is not used. -/
theorem run_discard {α : Type} {x : Hook abi W α} :
    (x >>= fun _ => pure ()) s = some ((), t) ↔ ∃ a, x s = some (a, t) := by
  cases hrun : x s with
  | none =>
    rw [run_bind_none hrun]
    simp
  | some result =>
    obtain ⟨a, s₁⟩ := result
    have hreturn : (x >>= fun _ => pure ()) s = some ((), s₁) := run_bind hrun
    rw [hreturn]
    simp

end Runs

section Steps

variable {s s₁ t : State abi W}

/-- An effect on what the app has leaves the tracer's alone. -/
theorem onApp_own {effect : App W → Option (App W)}
    (h : onApp effect s = some ((), t)) : t.own = s.own := by
  obtain ⟨app, -, ht⟩ := Option.map_eq_some_iff.mp h
  cases ht
  rfl

/-- An effect on what the app has is the same wherever the app has the same. -/
theorem onApp_same {effect : App W → Option (App W)} (h : onApp effect s = some ((), t))
    (happ : s₁.app = s.app) : onApp effect s₁ = some ((), { s₁ with app := t.app }) := by
  obtain ⟨app, heffect, ht⟩ := Option.map_eq_some_iff.mp h
  cases ht
  rw [onApp, happ, heffect]
  rfl

/-- So is a call of the app. -/
theorem appCall_same {k : Kind} {request : Request abi k} {value : k.Value}
    (h : appCall vm request s = some (value, t)) (happ : s₁.app = s.app) :
    appCall vm request s₁ = some (value, { s₁ with app := t.app }) := by
  obtain ⟨hready, hnull, hvalue, ht, -⟩ := appCall_eq_some h
  rw [appCall, happ, hready, hnull, hvalue, ht]
  rfl

/-- A plain step leaves the references of the wrappers alone. -/
theorem plain_step_own {event : Event abi W}
    (h : event.plain vm s = some ((), t)) : t.own = s.own := by
  cases event with
  | call caller request =>
    obtain ⟨value, happ⟩ := run_discard.mp h
    obtain ⟨-, -, -, -, hown⟩ := appCall_eq_some happ
    exact hown
  | other effect => exact onApp_own h

end Steps

/-- Without the tracer nothing is made for it. -/
theorem plain_own {events : List (Event abi W)} {s t : State abi W}
    (h : forM events (Event.plain vm) s = some ((), t)) : t.own = s.own := by
  induction events using List.reverseRecOn generalizing t with
  | nil =>
    cases h
    rfl
  | append_singleton done event ih =>
    obtain ⟨s₁, hdone, hevent⟩ := run_of_concat h
    rw [plain_step_own hevent, ih hdone]

variable {java : W} {locals : List ℕ}

/-- A run without events is quiet. -/
theorem quiet_nil : Quiet vm setting [] java locals := fun done _ _ _ hdone =>
  absurd (List.prefix_nil.mp hdone) (List.append_ne_nil_of_right_ne_nil done (List.cons_ne_nil _ _))

/-- What is asked of a run is asked of what is in front of it. -/
theorem Quiet.front {events done : List (Event abi W)} (h : Quiet vm setting events java locals)
    (hdone : done <+: events) : Quiet vm setting done java locals :=
  fun first caller k request hfirst => h first caller k request (hfirst.trans hdone)

/-- A run in which the tracer looks at no object is in step with the run without it. -/
theorem traced_run {events : List (Event abi W)}
    (h : Quiet vm setting events java locals) (limit : ℕ)
    {t : State abi W} (hplain : forM events (Event.plain vm) (enter java locals) = some ((), t)) :
    ∃ s, forM events (Event.traced vm setting limit) (enter java locals) = some ((), s) ∧
      s.app = t.app ∧ s.own = (enter java locals : State abi W).own := by
  induction events using List.reverseRecOn generalizing t with
  | nil =>
    cases hplain
    exact ⟨enter java locals, rfl, rfl, rfl⟩
  | append_singleton done event ih =>
    obtain ⟨t₁, hdone, hevent⟩ := run_of_concat hplain
    obtain ⟨s₁, htraced, happ₁, hown₁⟩ := ih (h.front (List.prefix_append done [event])) hdone
    cases event with
    | call caller request =>
      obtain ⟨value, happ⟩ := run_discard.mp hevent
      have hquiet := h done caller _ request List.prefix_rfl t₁ value t hdone happ
      rw [← happ₁] at hquiet
      obtain ⟨s, hcall, hsame, -, hkept⟩ := call_returns limit (appCall_same happ happ₁)
        (hquiet.imp_right fun hnot => ⟨reportable_of_not_describes hnot, fun hdescribes =>
          absurd hdescribes hnot⟩)
      exact ⟨s, (run_concat htraced).trans (run_discard.mpr ⟨value, hcall⟩), hsame,
        (hkept hquiet).trans hown₁⟩
    | other effect =>
      have hsame := onApp_same hevent happ₁
      exact ⟨{ s₁ with app := t.app }, (run_concat htraced).trans hsame, rfl, hown₁⟩

/-- A quiet run leaks nothing. -/
theorem leaksNothing_of {events : List (Event abi W)} (h : Quiet vm setting events java locals) :
    LeaksNothing vm setting events java locals := by
  intro done hdone t hplain
  obtain ⟨s, htraced, happ, hown⟩ := traced_run (h.front hdone) 0 hplain
  refine ⟨0, s, htraced, ?_⟩
  rw [State.live, State.live, happ, hown, plain_own hplain]

/-- A call that makes the tracer look at an object leaves references behind. -/
theorem leaks_of_describes {done : List (Event abi W)} (hquiet : Quiet vm setting done java locals)
    {caller : CString} {k : Kind} {request : AppRequest abi k} {s t : State abi W} {value : k.Value}
    (hplain : forM done (Event.plain vm) (enter java locals) = some ((), s))
    (happ : appCall vm request.request s = some (value, t)) (hlisted : setting.listed caller = true)
    (hdescribes : Describes vm s.app.java request) :
    ¬ LeaksNothing vm setting (done ++ [Event.call caller request]) java locals := by
  intro hleaks
  have hend : forM (done ++ [Event.call caller request]) (Event.plain vm) (enter java locals) =
      some ((), t) := (run_concat hplain).trans (run_discard.mpr ⟨value, happ⟩)
  obtain ⟨limit, s', htraced, hlive⟩ := hleaks _ List.prefix_rfl t hend
  obtain ⟨s₁, hdone, hevent⟩ := run_of_concat htraced
  obtain ⟨s₂, hdone₂, happ₂, -⟩ := traced_run hquiet limit hplain
  obtain rfl : s₂ = s₁ := by
    rw [hdone₂] at hdone
    cases hdone
    rfl
  obtain ⟨value', hcall⟩ := run_discard.mp hevent
  obtain ⟨hready, -, -, ht, -⟩ := appCall_eq_some happ
  rw [← happ₂] at hready hdescribes ht
  obtain ⟨-, -, hleaves, hs'⟩ := call_describes hlisted hready hdescribes hcall
  have hlength := hlive.length_eq
  rw [State.live, State.live, plain_own hend, hs', ht, List.length_append,
    List.length_append] at hlength
  exact hleaves.locals (List.length_eq_zero_iff.mp (Nat.add_left_cancel hlength))

/-- A run that leaks nothing is quiet. -/
theorem quiet_of {events : List (Event abi W)} (h : LeaksNothing vm setting events java locals) :
    Quiet vm setting events java locals := by
  induction events using List.reverseRecOn with
  | nil => exact quiet_nil
  | append_singleton init event ih =>
    have hquiet := ih fun done hdone => h done (hdone.trans (List.prefix_append init [event]))
    intro done caller k request hdone s value t hplain happ
    rcases List.prefix_concat_iff.mp hdone with hlast | hinit
    · obtain ⟨rfl, hevent⟩ := List.append_inj' hlast rfl
      cases hevent
      by_contra hnot
      obtain ⟨hcaller, hdescribes⟩ := not_or.mp hnot
      exact leaks_of_describes hquiet hplain happ (Bool.not_eq_false _ ▸ hcaller)
        (not_not.mp hdescribes) h
    · exact hquiet done caller k request hinit s value t hplain happ

/-- The tracer leaks no local references exactly in the native methods whose calls do not make it
look at an object, unless their callers are not listed. -/
theorem leaksNothing_iff_quiet (vm : JavaVM abi W) (setting : Setting)
    (events : List (Event abi W)) (java : W)
    (locals : List ℕ) :
    LeaksNothing vm setting events java locals ↔ Quiet vm setting events java locals :=
  ⟨quiet_of, leaksNothing_of⟩

/-- One call on an object like any other: the tracer's references to classes and to strings are
kept. -/
theorem receiver_kept :
    ¬ LeaksNothing (oneObject ⟨c_str (ascii "Model"), .text (c_str (ascii "model")), .other⟩)
      libappSetting [Event.call libapp oneMethodCall] () [1] := by
  exact leaks_of_describes quiet_nil rfl rfl libapp_listed Nat.one_ne_zero

end XposedJniTrace.Jni
