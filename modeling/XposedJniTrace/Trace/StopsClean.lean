import XposedJniTrace.Trace.Streams

/-!
# Stopping a tracer

What a stop is to leave behind: no event and no stop touches a stream that has been deleted, and
the tracer that was stopped accepts no caller until it is started again. One stream belongs to all
modules that were started with it, and the stop of a tracer neither tells the others nor leaves
the mode that hooks everything; a run keeps to the purpose exactly when this does not come to bear.
-/

namespace XposedJniTrace.Streams

open Mylibc (CString c_str ascii)

/-- The functions of `startHookJni` that start a module. -/
def Module.functions : Module → List String
  | tracer .jniTrace => ["0"]
  | tracer .stringHandlerHook => ["1"]
  | invokePrintf => ["2", "4"]
  | linkerCallBack => ["3"]

/-- An event starts a module: a start with an open file and one of its functions. -/
def Event.starts (m : Module) : Event → Bool
  | start _ _ function_list .opened _ => m.functions.any (has_boolean function_list)
  | _ => false

/-- Which event started a module last. -/
def lastStart (m : Module) (events : List Event) : Option ℕ :=
  ((events.zipIdx.filter fun e => e.1.starts m).getLast?).map Prod.snd

/-- The hook that an event comes through. -/
def Event.hook : Event → Option Hook
  | start .. => none
  | stop _ => none
  | call t _ _ => some (.tracer t)
  | invoke => some .invoke
  | registerNative _ _ => some .registerNative
  | loadAfter _ => some .linker

/-- An event comes to touch the stream of a module: the stop of a tracer, or a report, through a
hook that is in place. -/
def Event.reaches (s : State) (m : Module) (e : Event) : Bool :=
  e.hook.all s.hooked &&
    match e with
    | start .. => false
    | stop t => m = .tracer t
    | call t name msg =>
      m = .tracer t && msg ≠ [] && (t.isLister (s.config t) [] name).1 && (s.saving m).isSave
    | invoke => m = .invokePrintf && (s.saving m).isSave
    | registerNative method native_method =>
      m = .invokePrintf && method ≠ 0 && native_method ≠ 0 && (s.saving m).isSave
    | loadAfter path => m = .linkerCallBack && path.isSome && (s.saving m).isSave

/-- No event and no stop touches a deleted stream, and behind its stop a tracer accepts no caller
until it is started again. -/
structure StopsClean (events : List Event) : Prop where
  not_deleted : ∀ past e future, events = past ++ e :: future →
    ∀ os ∈ e.touches (run past), os ∉ (run past).deleted
  accepts_none : ∀ past t between future, events = past ++ .stop t :: between ++ future →
    (∀ e ∈ between, e.starts (.tracer t) = false) → ∀ match_so_name name,
      (t.isLister ((run (past ++ .stop t :: between)).config t) match_so_name name).1 = false

/-- No event touches the stream of a module behind the stop of a tracer that was last started with
it by the same call, and no tracer is stopped in the mode that hooks everything. -/
structure StoppedApart (events : List Event) : Prop where
  apart : ∀ past e future, events = past ++ e :: future →
    ∀ m, e.reaches (run past) m = true → ∀ p t q, past = p ++ .stop t :: q →
      lastStart (.tracer t) p = none ∨ lastStart (.tracer t) p ≠ lastStart m past
  filtered : ∀ past t future, events = past ++ .stop t :: future →
    ((run past).config t).isHookAll = false

section Effect

/-- A module that is started when a condition holds gives its stream away then and no other. -/
theorem ite_saving {s next : State} {m : Module} {os : ℕ}
    (hnext : next.saving = Function.update s.saving m ⟨true, some os⟩) (b : Bool) (other : Module) :
    (if b then next else s).saving other =
      if b && other = m then ⟨true, some os⟩ else s.saving other := by
  cases b with
  | true => simp [hnext, Function.update_apply]
  | false => rfl

/-- A tracer that is started when a condition holds takes its lists then, and no other does. -/
theorem ite_config {s next : State} {t : Tracer} {cfg : Config}
    (hnext : next.config = Function.update s.config t cfg) (b : Bool) (other : Tracer) :
    (if b then next else s).config other = if b && other = t then cfg else s.config other := by
  cases b with
  | true => simp [hnext, Function.update_apply]
  | false => rfl

/-- Saving a stream leaves the rest of the state as it is. -/
theorem save_config (s : State) (m : Module) (os : Option ℕ) : (s.save m os).config = s.config := by
  cases os <;> rfl

/-- Saving a stream deletes none. -/
theorem save_deleted (s : State) (m : Module) (os : Option ℕ) :
    (s.save m os).deleted = s.deleted := by
  cases os <;> rfl

/-- Installing hooks leaves the modes, the lists and the streams as they are. -/
theorem hook_config (s : State) (h : Hook) (installs : Hook → Bool) :
    (s.hook h installs).config = s.config := rfl

/-- Installing hooks deletes no stream. -/
theorem hook_deleted (s : State) (h : Hook) (installs : Hook → Bool) :
    (s.hook h installs).deleted = s.deleted := rfl

variable (s : State) (isListenerAll : Bool) (filter_list function_list : List (List UInt8))
  (installs : Hook → Bool)

/-- A start gives the new stream to the modules that it starts. -/
theorem startHookJni_saving (file : File) (m : Module) :
    (startHookJni isListenerAll filter_list function_list file installs s).saving m =
      if (Event.start isListenerAll filter_list function_list file installs).starts m then
        ⟨true, some s.time⟩
      else s.saving m := by
  cases file with
  | null => rfl
  | closed => rfl
  | opened =>
    unfold startHookJni
    rw [ite_saving rfl, ite_saving rfl, ite_saving rfl, ite_saving rfl, ite_saving rfl]
    cases m with
    | tracer t => cases t <;> simp [Event.starts, Module.functions]
    | invokePrintf =>
      by_cases h : has_boolean function_list "2" = true
      · simp [Event.starts, Module.functions, h]
      · simp [Event.starts, Module.functions, h]
    | linkerCallBack => simp [Event.starts, Module.functions]

/-- A start gives its mode and its filters to the tracers that it starts. -/
theorem startHookJni_config (file : File) (t : Tracer) :
    (startHookJni isListenerAll filter_list function_list file installs s).config t =
      if (Event.start isListenerAll filter_list function_list file installs).starts (.tracer t) then
        ⟨isListenerAll, filter_list, [CORE_SO_NAME]⟩
      else s.config t := by
  cases file with
  | null => rfl
  | closed => rfl
  | opened =>
    have hsaved : (startHookJni isListenerAll filter_list function_list .opened installs s).config =
        (if has_boolean function_list "1" then
          stringHandler.hookStrHandler isListenerAll [CORE_SO_NAME] filter_list
            (some s.time) installs
            (if has_boolean function_list "0" then
              Jnitrace.startjnitrace isListenerAll [CORE_SO_NAME] filter_list
                (some s.time) installs s
            else s)
        else if has_boolean function_list "0" then
          Jnitrace.startjnitrace isListenerAll [CORE_SO_NAME] filter_list (some s.time) installs s
        else s).config := by
      simp only [startHookJni, invokePrintf.HookJNIRegisterNative, invokePrintf.HookJNIInvoke,
        linkerCallBack.hookLinkerCallBack, apply_ite State.config, hook_config,
          save_config, ite_self]
    rw [hsaved, ite_config (save_config _ _ _), ite_config (save_config _ _ _)]
    cases t <;> simp [Event.starts, Module.functions]

/-- A start deletes nothing. -/
theorem startHookJni_deleted (file : File) :
    (startHookJni isListenerAll filter_list function_list file installs s).deleted = s.deleted := by
  cases file with
  | null => rfl
  | closed => rfl
  | opened =>
    simp only [startHookJni, Jnitrace.startjnitrace, stringHandler.hookStrHandler,
      invokePrintf.HookJNIRegisterNative, invokePrintf.HookJNIInvoke,
      linkerCallBack.hookLinkerCallBack, State.startTracer, apply_ite State.deleted, hook_deleted,
      save_deleted, ite_self]

end Effect

section Step

variable (s : State) (e : Event)

/-- The two stops have one body. -/
theorem stop_step (t : Tracer) :
    (Event.stop t).step s = { s.stopTracer t with time := s.time + 1 } := by
  cases t with
  | jniTrace => rfl
  | stringHandlerHook => rfl

/-- Only a start gives a module another stream. -/
theorem step_os (m : Module) :
    ((e.step s).saving m).os = if e.starts m then some s.time else (s.saving m).os := by
  cases e with
  | start isListenerAll filter_list function_list file installs =>
    change ((startHookJni _ _ _ _ _ s).saving m).os = _
    rw [startHookJni_saving]
    split_ifs
    · rfl
    · rfl
  | stop t =>
    rw [stop_step]
    change (Function.update s.saving (.tracer t) _ m).os = (s.saving m).os
    rw [Function.update_apply]
    split_ifs with h
    · rw [h]
    · rfl
  | call => rfl
  | invoke => rfl
  | registerNative => rfl
  | loadAfter => rfl

/-- Only a stop deletes, and what it deletes is the stream of its tracer. -/
theorem mem_step_deleted (os : ℕ) :
    os ∈ (e.step s).deleted ↔
      os ∈ s.deleted ∨ ∃ t, e = .stop t ∧ (s.saving (.tracer t)).os = some os := by
  cases e with
  | start isListenerAll filter_list function_list file installs =>
    have hsame := startHookJni_deleted s isListenerAll filter_list function_list installs file
    change os ∈ (startHookJni _ _ _ _ _ s).deleted ↔ _
    rw [hsame]
    exact (or_iff_left (by simp)).symm
  | stop t =>
    rw [stop_step]
    change os ∈ (s.saving (.tracer t)).os.toList ++ s.deleted ↔ _
    simp [or_comm]
  | call => exact (or_iff_left (by simp)).symm
  | invoke => exact (or_iff_left (by simp)).symm
  | registerNative => exact (or_iff_left (by simp)).symm
  | loadAfter => exact (or_iff_left (by simp)).symm

/-- An event touches the streams of the modules that it reaches. -/
theorem mem_touches (os : ℕ) :
    os ∈ e.touches s ↔ ∃ m, e.reaches s m = true ∧ (s.saving m).os = some os := by
  cases e with
  | start => simp [Event.touches, Event.reaches]
  | stop t => simp [Event.touches, Event.reaches, Event.hook]
  | call t name msg =>
    by_cases hhook : s.hooked (.tracer t) = true
    · by_cases hmatch : (t.isLister (s.config t) [] name).1 = true
      · by_cases hmsg : msg = []
        · simp [Event.touches, Event.reaches, traced, write, through, hmsg]
        · simp [Event.touches, Event.reaches, Event.hook, traced, write, through, State.written,
            hhook, hmatch, hmsg]
      · simp [Event.touches, Event.reaches, traced, through, hmatch]
    · simp [Event.touches, Event.reaches, Event.hook, through, hhook]
  | invoke =>
    by_cases hhook : s.hooked .invoke = true
    · simp [Event.touches, Event.reaches, Event.hook, new_invoke, through, State.written, hhook]
    · simp [Event.touches, Event.reaches, Event.hook, through, hhook]
  | registerNative method native_method =>
    by_cases hhook : s.hooked .registerNative = true
    · by_cases hnull : method = 0 ∨ native_method = 0
      · rcases hnull with hnull | hnull
        · simp [Event.touches, Event.reaches, RegisterNativeCallBack, through, hnull]
        · simp [Event.touches, Event.reaches, RegisterNativeCallBack, through, hnull]
      · obtain ⟨hmethod, hnative⟩ := not_or.mp hnull
        simp [Event.touches, Event.reaches, Event.hook, RegisterNativeCallBack, through,
          State.written, hhook, hmethod, hnative]
    · simp [Event.touches, Event.reaches, Event.hook, through, hhook]
  | loadAfter path =>
    by_cases hhook : s.hooked .linker = true
    · cases path with
      | none => simp [Event.touches, Event.reaches, loadAfter, through]
      | some path =>
        simp [Event.touches, Event.reaches, Event.hook, loadAfter, through, State.written, hhook]
    · simp [Event.touches, Event.reaches, Event.hook, through, hhook]

end Step

section Runs

variable (past : List Event)

/-- A run does its last event behind the others. -/
theorem run_concat (e : Event) : run (past ++ [e]) = e.step (run past) := List.foldl_concat _ _ _ _

/-- The time is the number of events. -/
theorem run_time : (run past).time = past.length := by
  induction past using List.reverseRecOn with
  | nil => rfl
  | append_singleton past e ih =>
    rw [run_concat, List.length_append, List.length_singleton, ← ih]
    rfl

/-- The start that counts for a module is the last one that starts it. -/
theorem lastStart_concat (m : Module) (e : Event) :
    lastStart m (past ++ [e]) = if e.starts m then some past.length else lastStart m past := by
  by_cases h : e.starts m = true
  · simp [lastStart, List.zipIdx_append, h]
  · simp [lastStart, List.zipIdx_append, h]

/-- A module holds the stream of its last start. -/
theorem run_os (m : Module) : ((run past).saving m).os = lastStart m past := by
  induction past using List.reverseRecOn with
  | nil => rfl
  | append_singleton past e ih => rw [run_concat, step_os, lastStart_concat, run_time, ih]

/-- The streams that have been deleted are those that a tracer had at its stop. -/
theorem mem_run_deleted (os : ℕ) :
    os ∈ (run past).deleted ↔
      ∃ p t q, past = p ++ .stop t :: q ∧ lastStart (.tracer t) p = some os := by
  induction past using List.reverseRecOn with
  | nil => simp [run, initial]
  | append_singleton past e ih =>
    rw [run_concat, mem_step_deleted, ih]
    constructor
    · intro h
      rcases h with ⟨p, t, q, rfl, hos⟩ | ⟨t, rfl, hos⟩
      · exact ⟨p, t, q ++ [e], by simp, hos⟩
      · exact ⟨past, t, [], rfl, run_os past (.tracer t) ▸ hos⟩
    · intro h
      obtain ⟨p, t, q, hsplit, hos⟩ := h
      rcases List.eq_nil_or_concat q with rfl | ⟨q, last, rfl⟩
      · obtain ⟨rfl, hlast⟩ := List.append_inj' hsplit rfl
        cases hlast
        exact .inr ⟨t, rfl, (run_os past (.tracer t)).trans hos⟩
      · have hsplit' : past ++ [e] = (p ++ .stop t :: q) ++ [last] := by simpa using hsplit
        obtain ⟨rfl, -⟩ := List.append_inj' hsplit' rfl
        exact .inl ⟨p, t, q, rfl, hos⟩

/-- An event touches no deleted stream exactly when no tracer that was last started by the same
call as a module that the event reaches has been stopped. -/
theorem not_deleted_iff (e : Event) :
    (∀ os ∈ e.touches (run past), os ∉ (run past).deleted) ↔
      ∀ m, e.reaches (run past) m = true → ∀ p t q, past = p ++ .stop t :: q →
        lastStart (.tracer t) p = none ∨ lastStart (.tracer t) p ≠ lastStart m past := by
  simp only [mem_touches, mem_run_deleted, run_os]
  constructor
  · intro h m hreaches p t q hsplit
    cases hstopped : lastStart (.tracer t) p with
    | none => exact .inl rfl
    | some os =>
      right
      intro hsame
      exact h os ⟨m, hreaches, hsame.symm⟩ ⟨p, t, q, hsplit, hstopped⟩
  · intro h os hos hdeleted
    obtain ⟨m, hreaches, hm⟩ := hos
    obtain ⟨p, t, q, hsplit, hstopped⟩ := hdeleted
    rcases h m hreaches p t q hsplit with hnone | hne
    · rw [hstopped] at hnone
      cases hnone
    · exact hne (hstopped.trans hm.symm)

end Runs

section Acceptance

variable {t : Tracer}

/-- What an event leaves of the mode and the lists of a tracer: those of a start, or the old ones,
perhaps without the filters. -/
theorem step_config (s : State) (e : Event) (t : Tracer) :
    (∃ hookAll filter_list, e.starts (.tracer t) = true ∧
      (e.step s).config t = ⟨hookAll, filter_list, [CORE_SO_NAME]⟩) ∨
    (e.starts (.tracer t) = false ∧ ((e.step s).config t = s.config t ∨
      (e.step s).config t = { s.config t with filterSoList := [] })) := by
  cases e with
  | start isListenerAll filter_list function_list file installs =>
    have hconfig := startHookJni_config s isListenerAll filter_list function_list installs file t
    cases hstarts : (Event.start isListenerAll filter_list function_list file installs).starts
      (.tracer t) with
    | true =>
      rw [hstarts, if_pos rfl] at hconfig
      exact .inl ⟨isListenerAll, filter_list, rfl, hconfig⟩
    | false =>
      rw [hstarts, if_neg Bool.false_ne_true] at hconfig
      exact .inr ⟨rfl, .inl hconfig⟩
  | stop u =>
    right
    refine ⟨rfl, ?_⟩
    rw [stop_step]
    change Function.update s.config u _ t = _ ∨ Function.update s.config u _ t = _
    by_cases h : t = u
    · subst h
      exact .inr (Function.update_self _ _ _)
    · exact .inl (Function.update_of_ne h _ _)
  | call => exact .inr ⟨rfl, .inl rfl⟩
  | invoke => exact .inr ⟨rfl, .inl rfl⟩
  | registerNative => exact .inr ⟨rfl, .inl rfl⟩
  | loadAfter => exact .inr ⟨rfl, .inl rfl⟩

/-- The mode that hooks everything comes with the tracer's own library forbidden. -/
theorem run_forbid (past : List Event) (h : ((run past).config t).isHookAll = true) :
    ((run past).config t).forbidSoList = [CORE_SO_NAME] := by
  induction past using List.reverseRecOn with
  | nil => cases h
  | append_singleton past e ih =>
    rw [run_concat] at h ⊢
    rcases step_config (run past) e t with
      ⟨hookAll, filter_list, -, hconfig⟩ | ⟨-, hconfig | hconfig⟩
    · rw [hconfig]
    · rw [hconfig] at h ⊢
      exact ih h
    · rw [hconfig] at h ⊢
      exact ih h

/-- Without filters and in the other mode, a tracer stays so until it is started. -/
theorem run_without_filters {past between : List Event}
    (hbetween : ∀ e ∈ between, e.starts (.tracer t) = false)
    (hmode : ((run past).config t).isHookAll = false)
    (hfilter : ((run past).config t).filterSoList = []) :
    ((run (past ++ between)).config t).isHookAll = false ∧
      ((run (past ++ between)).config t).filterSoList = [] := by
  induction between using List.reverseRecOn with
  | nil => exact ⟨by rw [List.append_nil, hmode], by rw [List.append_nil, hfilter]⟩
  | append_singleton between e ih =>
    obtain ⟨hmode', hfilter'⟩ := ih fun f hf => hbetween f (List.mem_append_left _ hf)
    rw [← List.append_assoc, run_concat]
    rcases step_config (run (past ++ between)) e t with
      ⟨hookAll, filter_list, hstarts, -⟩ | ⟨-, hconfig | hconfig⟩
    · rw [hbetween e (List.mem_append_right _ List.mem_cons_self)] at hstarts
      cases hstarts
    · rw [hconfig]
      exact ⟨hmode', hfilter'⟩
    · rw [hconfig]
      exact ⟨hmode', rfl⟩

/-- Both tracers have one body of `isLister` -/
theorem isLister_eq (t : Tracer) : t.isLister = isListerBody := by
  cases t with
  | jniTrace => rfl
  | stringHandlerHook => rfl

/-- Behind a stop the filters are empty, and the mode is what it was. -/
theorem config_stop (past : List Event) (t : Tracer) :
    (run (past ++ [.stop t])).config t = { (run past).config t with filterSoList := [] } := by
  rw [run_concat, stop_step]
  exact Function.update_self _ _ _

/-- A tracer that hooks everything accepts an app file behind its stop. -/
theorem accepts_of_hookAll {past : List Event} (h : ((run past).config t).isHookAll = true) :
    (t.isLister ((run (past ++ [.stop t])).config t) [] (c_str (ascii "/data/"))).1 = true := by
  have hmode : ((run (past ++ [.stop t])).config t).isHookAll = true := by
    rw [config_stop, h]
  rw [isLister_eq, isLister_of_hookAll hmode, run_forbid _ hmode, ← any_my_strstr]
  decide +kernel

/-- A tracer in the other mode accepts no caller behind its stop, until it is started. -/
theorem accepts_none_of_filter {past between : List Event}
    (h : ((run past).config t).isHookAll = false)
    (hbetween : ∀ e ∈ between, e.starts (.tracer t) = false) (match_so_name : List UInt8)
    (name : CString) :
    (t.isLister ((run (past ++ .stop t :: between)).config t) match_so_name name).1 = false := by
  have hstopped := config_stop past t
  obtain ⟨hmode, hfilter⟩ := run_without_filters hbetween (by rw [hstopped, h]) (by rw [hstopped])
  have hsplit : past ++ .stop t :: between = past ++ [.stop t] ++ between := by simp
  rw [hsplit, isLister_eq, ← Bool.not_eq_true, isLister_of_filter hmode, hfilter]
  intro hcontains
  obtain ⟨filter, hmem, -⟩ := hcontains
  cases hmem

end Acceptance

/-- A run stops its tracers cleanly exactly when every stop is apart from the other modules of its
stream and no stop is one of a tracer that hooks everything. -/
theorem stopsClean_iff_stoppedApart (events : List Event) :
    StopsClean events ↔ StoppedApart events := by
  constructor
  · intro h
    refine ⟨?_, ?_⟩
    · intro past e future hsplit
      exact (not_deleted_iff past e).mp (h.not_deleted past e future hsplit)
    · intro past t future hsplit
      rw [← Bool.not_eq_true]
      intro hmode
      have hnone := h.accepts_none past t [] future (by simpa using hsplit) nofun []
        (c_str (ascii "/data/"))
      rw [accepts_of_hookAll hmode] at hnone
      cases hnone
  · intro h
    refine ⟨?_, ?_⟩
    · intro past e future hsplit
      exact (not_deleted_iff past e).mpr (h.apart past e future hsplit)
    · intro past t between future hsplit hbetween
      have hmode := h.filtered past t (between ++ future) (by simpa using hsplit)
      exact accepts_none_of_filter hmode hbetween

/-- Both tracers are started together and stopped one after the other: the second stop deletes the
stream again. -/
theorem stopped_twice :
    ¬ StopsClean [(.start false [ascii "libapp.so"] [ascii "0", ascii "1"] .opened fun _ => true),
      .stop .jniTrace, .stop .stringHandlerHook] := by
  intro h
  have hfree := h.not_deleted
    [(.start false [ascii "libapp.so"] [ascii "0", ascii "1"] .opened fun _ => true),
      .stop .jniTrace]
    (.stop .stringHandlerHook) [] rfl
  exact hfree 0 (by decide +kernel) (by decide +kernel)

end XposedJniTrace.Streams
