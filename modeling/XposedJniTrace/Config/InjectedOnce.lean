import XposedJniTrace.Config.IntoMySo
import Mathlib.Data.List.Induction
import Mathlib.Data.List.Nodup

/-!
# Injected once

What the flag `isInit` is there for: each step of the injection is carried out at most once in a
process. The flag is set behind the last step, and an injection that finds no class or no function
to start returns in front of it; a process keeps to the purpose exactly when no injection follows
one that returned so.
-/

namespace XposedJniTrace.LHook

/-- A call of `initFunJni` comes to inject. -/
def Injects (context : Bool) (steps : Steps) (p : Process) : Bool :=
  !p.isInit && context && steps.packageName && !p.statics.isSerialization && p.hasLoader

/-- An injection comes to the flag: the class is found, and there is a function to start or the
file cannot be created. -/
def Completes (steps : Steps) (p : Process) : Bool :=
  steps.findClass && (!steps.createNewFile || p.statics.mFunctionList.length ≠ 0)

variable (parsers : Parsers)

/-- The call of `initFunJni` that an event comes to: the process, and the arguments. -/
def Event.initFunJni (p : Process) : Event → Option (Process × Bool × Steps)
  | handleLoadPackage classLoader shared file packageName getContext _ steps =>
    let (statics, goesOn) := readConfig parsers shared file p.statics
    if goesOn && some packageName = statics.mTagPackageName && getContext = .found then
      some ({ p with classLoader := classLoader, statics := statics }, true, steps)
    else none
  | createAppContext result steps => if p.hooks = 0 then none else some (p, result, steps)

/-- An event injects. -/
def Event.injects (p : Process) (e : Event) : Bool :=
  match e.initFunJni parsers p with
  | none => false
  | some (q, context, steps) => Injects context steps q

/-- The injection of an event comes to the flag. -/
def Event.completes (p : Process) (e : Event) : Bool :=
  match e.initFunJni parsers p with
  | none => true
  | some (q, _, steps) => Completes steps q

/-- No injection comes behind one that does not come to the flag. -/
def NoneRepeated (events : List Event) : Prop :=
  ∀ past e between later future, events = past ++ e :: between ++ later :: future →
    e.injects parsers (process parsers past) = true →
      e.completes parsers (process parsers past) = false →
        later.injects parsers (process parsers (past ++ e :: between)) = false

section Step

variable {parsers}

/-- The steps of one injection are different, and the merge is among them. -/
theorem initMySoForName_nodup (systemPath : Option JString) (steps : Steps) :
    (initMySoForName systemPath steps).Nodup ∧
      .MergeClassloader ∈ initMySoForName systemPath steps ∧
      .startHookJni ∉ initMySoForName systemPath steps := by
  unfold initMySoForName
  cases steps.merge with
  | fails => simp
  | failsBehindSet => simp
  | succeeds =>
    split_ifs
    · cases steps.soPath with
      | null => simp
      | throws => simp
      | path => simp
    · simp

/-- A call of `initFunJni` that does not inject carries out nothing, and a flag that is set
stays. -/
theorem initFunJni_of_not_injects {context : Bool} {steps : Steps} {p : Process}
    (h : Injects context steps p = false) :
    (initFunJni context steps p).actions = p.actions ∧
      (p.isInit = true → (initFunJni context steps p).isInit = true) := by
  by_cases hinit : p.isInit = true
  · simp [initFunJni, hinit]
  by_cases hcontext : context = true
  · by_cases hname : steps.packageName = true
    · by_cases hserial : p.statics.isSerialization = true
      · simp [initFunJni, hinit, hcontext, hname, hserial]
      · have hloader : p.hasLoader = false := by
          simpa [Injects, hinit, hcontext, hname, hserial] using h
        simp [initFunJni, intoMySo, hinit, hcontext, hname, hserial, hloader]
    · simp [initFunJni, hinit, hname]
  · simp [initFunJni, hinit, hcontext]

/-- What a call that injects goes through. -/
theorem initFunJni_eq_of_injects {context : Bool} {steps : Steps} {p : Process}
    (h : Injects context steps p = true) :
    initFunJni context steps p =
      let q := { p with actions := p.actions ++ initMySoForName p.statics.systemIntoPath steps }
      if steps.findClass = false then q
      else if steps.createNewFile = false then { q with isInit := true }
      else if p.statics.mFunctionList.length = 0 then q
      else { q with isInit := true, actions := q.actions ++ [.startHookJni] } := by
  simp only [Injects, Bool.and_eq_true, Bool.not_eq_true'] at h
  obtain ⟨⟨⟨⟨hinit, hcontext⟩, hname⟩, hserial⟩, hloader⟩ := h
  cases hfound : steps.findClass with
  | false => simp [initFunJni, intoMySo, hinit, hcontext, hname, hserial, hloader, hfound]
  | true =>
    cases hfile : steps.createNewFile with
    | false => simp [initFunJni, intoMySo, hinit, hcontext, hname, hserial, hloader, hfound, hfile]
    | true =>
      simp [initFunJni, intoMySo, callStartHookJni, hinit, hcontext, hname, hserial,
        hloader, hfound, hfile]

/-- A call that injects adds steps that are different, the merge among them, and sets the flag
exactly when it comes to it. -/
theorem initFunJni_of_injects {context : Bool} {steps : Steps} {p : Process}
    (h : Injects context steps p = true) :
    (∃ added, (initFunJni context steps p).actions = p.actions ++ added ∧ added.Nodup ∧
      .MergeClassloader ∈ added) ∧
    (initFunJni context steps p).isInit = Completes steps p := by
  obtain ⟨hnodup, hmerge, hstart⟩ := initMySoForName_nodup p.statics.systemIntoPath steps
  have hall : (initMySoForName p.statics.systemIntoPath steps ++ [Action.startHookJni]).Nodup := by
    rw [List.nodup_append]
    refine ⟨hnodup, List.nodup_singleton _, ?_⟩
    intro a ha b hb hsame
    rw [List.mem_singleton] at hb
    exact hstart (hb ▸ hsame ▸ ha)
  have hinit : p.isInit = false := by
    simp only [Injects, Bool.and_eq_true, Bool.not_eq_true'] at h
    exact h.1.1.1.1
  rw [initFunJni_eq_of_injects h, Completes]
  cases steps.findClass with
  | false => exact ⟨⟨_, rfl, hnodup, hmerge⟩, hinit⟩
  | true =>
    cases steps.createNewFile with
    | false => exact ⟨⟨_, rfl, hnodup, hmerge⟩, rfl⟩
    | true =>
      by_cases hempty : p.statics.mFunctionList.length = 0
      · simp only [hempty]
        exact ⟨⟨_, rfl, hnodup, hmerge⟩, hinit⟩
      · simp only [hempty]
        exact ⟨⟨_, List.append_assoc _ _ _, hall, List.mem_append_left _ hmerge⟩,
          by simpa using hempty⟩

/-- An event is a call of `initFunJni` or changes neither the flag nor the steps. -/
theorem step_cases (parsers : Parsers) (e : Event) (p : Process) :
    (∃ q context steps, e.initFunJni parsers p = some (q, context, steps) ∧
      q.isInit = p.isInit ∧ q.actions = p.actions ∧
        e.step parsers p = initFunJni context steps q) ∨
    (e.initFunJni parsers p = none ∧ (e.step parsers p).isInit = p.isInit ∧
      (e.step parsers p).actions = p.actions) := by
  cases e with
  | handleLoadPackage classLoader shared file packageName getContext hooked steps =>
    rw [Event.initFunJni, Event.step, handleLoadPackage]
    generalize readConfig parsers shared file p.statics = read
    obtain ⟨statics, goesOn⟩ := read
    cases goesOn with
    | false => exact .inr ⟨rfl, rfl, rfl⟩
    | true =>
      by_cases hmatch : some packageName = statics.mTagPackageName
      · cases getContext with
        | throws => right; simp [startInit, hmatch]
        | null => right; cases hooked <;> simp [startInit, hmatch]
        | found =>
          left
          refine ⟨{ p with classLoader := classLoader, statics := statics }, true, steps,
            ?_, rfl, rfl, ?_⟩
          · simp [hmatch]
          · simp [startInit, hmatch]
      · right
        simp [hmatch]
  | createAppContext result steps =>
    rw [Event.initFunJni, Event.step]
    split_ifs
    · exact .inr ⟨rfl, rfl, rfl⟩
    · exact .inl ⟨p, result, steps, rfl, rfl, rfl, rfl⟩

/-- An event that does not inject carries out nothing, and a flag that is set stays. -/
theorem step_of_not_injects {e : Event} {p : Process} (h : e.injects parsers p = false) :
    (e.step parsers p).actions = p.actions ∧
      (p.isInit = true → (e.step parsers p).isInit = true) := by
  rcases step_cases parsers e p with
    ⟨q, context, steps, hcall, hinit, hactions, hstep⟩ | ⟨-, hinit, hactions⟩
  · rw [Event.injects, hcall] at h
    obtain ⟨hsame, hflag⟩ := initFunJni_of_not_injects h
    rw [hstep, hsame, ← hinit]
    exact ⟨hactions, hflag⟩
  · exact ⟨hactions, fun h => hinit.trans h⟩

/-- An event that injects finds the flag unset, adds steps that are different, the merge among
them, and sets the flag exactly when its injection comes to it. -/
theorem step_of_injects {e : Event} {p : Process} (h : e.injects parsers p = true) :
    p.isInit = false ∧
    (∃ added, (e.step parsers p).actions = p.actions ++ added ∧ added.Nodup ∧
      .MergeClassloader ∈ added) ∧
    (e.step parsers p).isInit = e.completes parsers p := by
  rcases step_cases parsers e p with
    ⟨q, context, steps, hcall, hinit, hactions, hstep⟩ | ⟨hcall, -⟩
  · rw [Event.injects, hcall] at h
    obtain ⟨hadded, hflag⟩ := initFunJni_of_injects h
    rw [hactions] at hadded
    rw [hstep, Event.completes, hcall, ← hinit]
    refine ⟨?_, hadded, hflag⟩
    simp only [Injects, Bool.and_eq_true, Bool.not_eq_true'] at h
    exact h.1.1.1.1
  · rw [Event.injects, hcall] at h
    cases h

end Step

section Runs

variable {parsers}

/-- One event more is one step more. -/
theorem process_concat (events : List Event) (e : Event) :
    process parsers (events ++ [e]) = e.step parsers (process parsers events) :=
  List.foldl_concat _ _ _ _

/-- The account of a process whose injections are not repeated: the steps are different, and behind
an injection the flag is set or the injection did not come to it. -/
structure Accounted (parsers : Parsers) (past : List Event) : Prop where
  nodup : (process parsers past).actions.Nodup
  injected : (process parsers past).actions = [] ∨ ∃ before e between,
    past = before ++ e :: between ∧ e.injects parsers (process parsers before) = true ∧
      (e.completes parsers (process parsers before) = true →
        (process parsers past).isInit = true)

/-- One more event keeps the account, unless it repeats an injection that did not come to the
flag. -/
theorem Accounted.step {past : List Event} {e : Event} (h : Accounted parsers past)
    (hnone : NoneRepeated parsers (past ++ [e])) : Accounted parsers (past ++ [e]) := by
  cases hinjects : e.injects parsers (process parsers past) with
  | false =>
    obtain ⟨hsame, hflag⟩ := step_of_not_injects hinjects
    refine ⟨?_, ?_⟩
    · rw [process_concat, hsame]
      exact h.nodup
    · rcases h.injected with hempty | ⟨before, f, between, rfl, hf, hinit⟩
      · exact .inl (by rw [process_concat, hsame, hempty])
      · refine .inr ⟨before, f, between ++ [e], by simp, hf, ?_⟩
        intro hcompletes
        rw [process_concat]
        exact hflag (hinit hcompletes)
  | true =>
    obtain ⟨hunset, ⟨added, hadded, hnodup, -⟩, hcompletes⟩ := step_of_injects hinjects
    rcases h.injected with hempty | ⟨before, f, between, rfl, hf, hinit⟩
    · refine ⟨?_, .inr ⟨past, e, [], rfl, hinjects, ?_⟩⟩
      · rw [process_concat, hadded, hempty]
        exact hnodup
      · intro h
        rw [process_concat, hcompletes, h]
    · -- the injection in front did not come to the flag, which is unset
      have hfails : f.completes parsers (process parsers before) = false := by
        rw [← Bool.not_eq_true]
        intro h
        rw [hinit h] at hunset
        cases hunset
      have hnot := hnone before f between e [] rfl hf hfails
      rw [hinjects] at hnot
      cases hnot

/-- A condition on every part of a run holds of its first parts. -/
theorem NoneRepeated.left {past future : List Event} (h : NoneRepeated parsers (past ++ future)) :
    NoneRepeated parsers past := by
  intro before e between later rest hsplit
  exact h before e between later (rest ++ future) (by rw [hsplit]; simp)

end Runs

end XposedJniTrace.LHook
