import XposedJniTrace.Linker.LinkerCallBack

/-!
# Each load once

What the callbacks of the linker handler are there for: the callbacks registered since the last
cleaning see each load once in front of the original and once behind it, in the order of their
registration. Cleaning leaves the pointer to the deleted list in place, so that the events keep to
this exactly as long as nothing uses the list after a cleaning that found one.
-/

namespace XposedJniTrace.LinkerHandler

open Mylibc (CString c_str)
open scoped List

/-- The callbacks added since the last cleaning. -/
def registered (events : List Event) : List CallBack :=
  events.foldl
    (fun callbacks e =>
      match e with
      | .addLinkerCallBack callBack => callbacks ++ [callBack]
      | .cleanCallBack => []
      | .load _ => callbacks) []

mutual

/-- What a load is to show: each callback before and after the original, which is given the
redirected path when there is one and the caller's path otherwise. -/
def Load.intended (callbacks : List CallBack) (linkerIoRedirect : Redirect) : Load → List Entry
  | .mk call ret nested =>
    let inside := intendedAll callbacks linkerIoRedirect nested
    match call.path with
    | none => .original call :: inside ++ [.returned ret]
    | some path =>
      let redirected := linkerIORedirect linkerIoRedirect (some path)
      let given := if redirected ≠ [] then c_str redirected else path
      callbacks.map (fun callback => .loadBefore callback path) ++
        .original (call.withPath (some given)) :: inside ++ .returned ret ::
          callbacks.map fun callback =>
            .loadAfter callback path (c_str redirected) (call.handle ret)

/-- What the loads of a list are meant to show. -/
def Load.intendedAll (callbacks : List CallBack) (linkerIoRedirect : Redirect) :
    List Load → List Entry
  | [] => []
  | load :: rest =>
    load.intended callbacks linkerIoRedirect ++ intendedAll callbacks linkerIoRedirect rest

end

/-- What a registration or a load is to show over the registered callbacks. -/
def Event.intended (linkerIoRedirect : Redirect) (callbacks : List CallBack) : Event → List Entry
  | addLinkerCallBack _ => []
  | cleanCallBack => []
  | load intercepted => intercepted.intended callbacks linkerIoRedirect

/-- Every load and every registration of a run shows what it is to show, with no use of what has
been deleted. -/
def EachLoadOnce (linkerIoRedirect : Redirect) (events : List Event) : Prop :=
  ∀ before e after, events = before ++ e :: after → e ≠ .cleanCallBack →
    e.shows linkerIoRedirect (run before) = e.intended linkerIoRedirect (registered before)

mutual

/-- A load with a path, or one with such a load inside. -/
def Load.hasPath : Load → Bool
  | .mk call _ nested => call.path.isSome || hasPathAny nested

/-- Whether one of the loads has a path. -/
def Load.hasPathAny : List Load → Bool
  | [] => false
  | load :: rest => load.hasPath || hasPathAny rest

end

/-- The registrations, and the loads with a path, go through the list. -/
def Event.usesList : Event → Bool
  | addLinkerCallBack _ => true
  | cleanCallBack => false
  | load intercepted => intercepted.hasPath

/-- Nothing uses the list behind a cleaning that comes behind a registration. -/
def ListKept (events : List Event) : Prop :=
  ∀ callBack e, e.usesList = true → ¬ [.addLinkerCallBack callBack, .cleanCallBack, e] <+ events

section Loads

variable (linkerIoRedirect : Redirect)

/-- The wrappers differ in their arguments only: each is the shared body, around its own call. -/
theorem Call.replacement_eq (linkerCallBackList : Pointer) (inside : List Entry) (ret : ℤ)
    (call : Call) :
    call.replacement linkerCallBackList linkerIoRedirect inside ret =
      intercepted linkerCallBackList linkerIoRedirect inside ret call.path (call.withPath ·)
        (call.handle ret) := by
  cases call with
  | dlopen_CI => rfl
  | do_dlopen_CIV => rfl
  | do_dlopen_CIVV => rfl
  | __openat => rfl
  | __open => rfl

/-- A call with its own path is itself. -/
theorem Call.withPath_path (call : Call) : call.withPath call.path = call := by
  cases call with
  | dlopen_CI => rfl
  | do_dlopen_CIV => rfl
  | do_dlopen_CIVV => rfl
  | __openat => rfl
  | __open => rfl

/-- The callbacks behind a pointer that leads to a list or to nothing. -/
def Pointer.callbacks : Pointer → List CallBack
  | null => []
  | list callbacks => callbacks
  | deleted => []

/-- Where the list has not been deleted, every callback in it is called once, in order. -/
theorem Pointer.forEach_of_ne {p : Pointer} (h : p ≠ .deleted) (call : CallBack → Entry) :
    p.forEach call = p.callbacks.map call := by
  cases p with
  | null => rfl
  | list callbacks => rfl
  | deleted => exact absurd rfl h

/-- A load without a path goes through no list, and its original is given no path. -/
theorem shows_of_path_none {linkerCallBackList : Pointer} {call : Call} (hpath : call.path = none)
    (ret : ℤ) (nested : List Load) :
    (Load.mk call ret nested).shows linkerCallBackList linkerIoRedirect =
      .original call :: Load.showsAll linkerCallBackList linkerIoRedirect nested ++
        [.returned ret] := by
  have hsame := call.withPath_path
  rw [hpath] at hsame
  rw [Load.shows, Call.replacement_eq, intercepted, hpath]
  change Entry.original (call.withPath none) :: _ ++ _ = _
  rw [hsame]
  rfl

/-- A load with a path goes through the list before and after the original. -/
theorem shows_of_path_some {linkerCallBackList : Pointer} {call : Call} {path : CString}
    (hpath : call.path = some path) (ret : ℤ) (nested : List Load) :
    (Load.mk call ret nested).shows linkerCallBackList linkerIoRedirect =
      linkerCallBackList.forEach (.loadBefore · path) ++
        .original (call.withPath (relocated linkerIoRedirect (some path))) ::
          Load.showsAll linkerCallBackList linkerIoRedirect nested ++ .returned ret ::
            linkerCallBackList.forEach (.loadAfter · path
              (c_str (linkerIORedirect linkerIoRedirect (some path))) (call.handle ret)) := by
  rw [Load.shows, Call.replacement_eq, intercepted, hpath]
  rfl

/-- The original is given the redirected path when there is one. -/
theorem relocated_some (path : CString) :
    relocated linkerIoRedirect (some path) =
      some (if linkerIORedirect linkerIoRedirect (some path) ≠ [] then
        c_str (linkerIORedirect linkerIoRedirect (some path)) else path) := by
  rw [relocated]
  by_cases h : linkerIORedirect linkerIoRedirect (some path) = []
  · rw [if_pos h, if_neg (not_not_intro h)]
  · rw [if_neg h, if_pos h]

mutual

/-- Over a list that is there, a load shows what it is to show. -/
theorem Load.shows_eq_intended {p : Pointer} (h : p ≠ .deleted) (load : Load) :
    load.shows p linkerIoRedirect = load.intended p.callbacks linkerIoRedirect := by
  obtain ⟨call, ret, nested⟩ := load
  cases hpath : call.path with
  | none =>
    rw [shows_of_path_none linkerIoRedirect hpath, Load.showsAll_eq_intendedAll h nested,
      Load.intended, hpath]
  | some path =>
    rw [shows_of_path_some linkerIoRedirect hpath, Load.showsAll_eq_intendedAll h nested,
      Pointer.forEach_of_ne h, Pointer.forEach_of_ne h, relocated_some, Load.intended, hpath]

/-- While the list has not been deleted, loads show what they are meant to show. -/
theorem Load.showsAll_eq_intendedAll {p : Pointer} (h : p ≠ .deleted) (loads : List Load) :
    Load.showsAll p linkerIoRedirect loads =
      Load.intendedAll p.callbacks linkerIoRedirect loads := by
  cases loads with
  | nil => rfl
  | cons load rest =>
    rw [Load.showsAll, Load.intendedAll, Load.shows_eq_intended h load,
      Load.showsAll_eq_intendedAll h rest]

end

mutual

/-- Over a deleted list, a load without a path anywhere shows what it is to show. -/
theorem Load.shows_of_no_path (p : Pointer) (callbacks : List CallBack) (load : Load)
    (hnone : load.hasPath = false) :
    load.shows p linkerIoRedirect = load.intended callbacks linkerIoRedirect := by
  obtain ⟨call, ret, nested⟩ := load
  rw [Load.hasPath, Bool.or_eq_false_iff] at hnone
  have hpath : call.path = none :=
    Option.isSome_eq_false_iff.mp hnone.1 |> Option.isNone_iff_eq_none.mp
  rw [shows_of_path_none linkerIoRedirect hpath,
    Load.showsAll_of_no_path p callbacks nested hnone.2, Load.intended, hpath]

/-- Loads without a path show what they are meant to show, whatever has become of the list. -/
theorem Load.showsAll_of_no_path (p : Pointer) (callbacks : List CallBack) (loads : List Load)
    (hnone : Load.hasPathAny loads = false) :
    Load.showsAll p linkerIoRedirect loads = Load.intendedAll callbacks linkerIoRedirect loads := by
  cases loads with
  | nil => rfl
  | cons load rest =>
    rw [Load.hasPathAny, Bool.or_eq_false_iff] at hnone
    rw [Load.showsAll, Load.intendedAll, Load.shows_of_no_path p callbacks load hnone.1,
      Load.showsAll_of_no_path p callbacks rest hnone.2]

end

mutual

/-- Over a deleted list, a load with a path anywhere uses the list. -/
theorem Load.usesDeleted_mem (load : Load) (hpath : load.hasPath = true) :
    .usesDeleted ∈ load.shows .deleted linkerIoRedirect := by
  obtain ⟨call, ret, nested⟩ := load
  rw [Load.hasPath, Bool.or_eq_true] at hpath
  cases hp : call.path with
  | none =>
    rw [hp] at hpath
    have hnested : Load.hasPathAny nested = true := by simpa using hpath
    rw [shows_of_path_none linkerIoRedirect hp]
    exact List.mem_append_left _
      (List.mem_cons_of_mem _ (Load.usesDeleted_mem_all nested hnested))
  | some path =>
    rw [shows_of_path_some linkerIoRedirect hp]
    exact List.mem_append_left _ (List.mem_append_left _ List.mem_cons_self)

/-- With the list deleted, a load that has a path uses it. -/
theorem Load.usesDeleted_mem_all (loads : List Load) (hpath : Load.hasPathAny loads = true) :
    .usesDeleted ∈ Load.showsAll .deleted linkerIoRedirect loads := by
  cases loads with
  | nil => cases hpath
  | cons load rest =>
    rw [Load.hasPathAny, Bool.or_eq_true] at hpath
    rw [Load.showsAll, List.mem_append]
    rcases hpath with h | h
    · exact .inl (Load.usesDeleted_mem load h)
    · exact .inr (Load.usesDeleted_mem_all rest h)

end

mutual

/-- What a load is to show uses nothing that has been deleted. -/
theorem Load.usesDeleted_notMem_intended (callbacks : List CallBack) (load : Load) :
    .usesDeleted ∉ load.intended callbacks linkerIoRedirect := by
  obtain ⟨call, ret, nested⟩ := load
  have hinside := Load.usesDeleted_notMem_intendedAll callbacks nested
  rw [Load.intended]
  cases call.path with
  | none => simp [hinside]
  | some path => simp [hinside]

/-- No load is meant to use the deleted list. -/
theorem Load.usesDeleted_notMem_intendedAll (callbacks : List CallBack) (loads : List Load) :
    .usesDeleted ∉ Load.intendedAll callbacks linkerIoRedirect loads := by
  cases loads with
  | nil => exact List.not_mem_nil
  | cons load rest =>
    rw [Load.intendedAll, List.mem_append]
    intro hmem
    rcases hmem with h | h
    · exact Load.usesDeleted_notMem_intended callbacks load h
    · exact Load.usesDeleted_notMem_intendedAll callbacks rest h

end

end Loads

section Runs

variable {events : List Event} (e : Event)

/-- A run does its last event behind the others. -/
theorem run_concat (events : List Event) : run (events ++ [e]) = e.step (run events) := by
  rw [run, List.foldl_concat]
  rfl

/-- A registration followed by a cleaning, seen from the end of the events. -/
theorem cleaned_concat (callBack : CallBack) :
    [.addLinkerCallBack callBack, .cleanCallBack] <+ events ++ [e] ↔
      [.addLinkerCallBack callBack, .cleanCallBack] <+ events ∨
        (e = .cleanCallBack ∧ .addLinkerCallBack callBack ∈ events) := by
  constructor
  · intro h
    obtain ⟨front, last, hsplit, hfront, hlast⟩ := List.sublist_append_iff.mp h
    cases last with
    | nil =>
      rw [List.append_nil] at hsplit
      exact .inl (hsplit ▸ hfront)
    | cons f rest =>
      have hlength := hlast.length_le
      rw [List.length_cons, List.length_singleton] at hlength
      have hrest : rest = [] := List.eq_nil_of_length_eq_zero (by omega)
      subst hrest
      have happend : [.addLinkerCallBack callBack] ++ [.cleanCallBack] = front ++ [f] := hsplit
      obtain ⟨hadd, hclean⟩ := List.append_inj' happend rfl
      rw [List.cons.injEq] at hclean
      have hlast' := List.singleton_sublist.mp hlast
      rw [List.mem_singleton] at hlast'
      refine .inr ⟨hlast'.symm.trans hclean.1.symm, ?_⟩
      exact List.singleton_sublist.mp (hadd ▸ hfront)
  · intro h
    rcases h with h | ⟨hclean, hadd⟩
    · exact h.trans (List.sublist_append_left events [e])
    · subst hclean
      exact (List.singleton_sublist.mpr hadd).append (List.Sublist.refl [Event.cleanCallBack])

/-- Only a cleaning cleans. -/
theorem not_cleaned_concat {e : Event} (he : e ≠ .cleanCallBack) {callBack : CallBack}
    (h : ¬ [.addLinkerCallBack callBack, .cleanCallBack] <+ events) :
    ¬ [.addLinkerCallBack callBack, .cleanCallBack] <+ events ++ [e] := by
  rw [cleaned_concat]
  intro hcleaned
  rcases hcleaned with hcleaned | ⟨hclean, -⟩
  · exact h hcleaned
  · exact he hclean

/-- What the list pointer says of the events that came before. -/
inductive Tracked (events : List Event) : Pointer → Prop where
  | null (hregistered : registered events = [])
      (hnone : ∀ callBack, .addLinkerCallBack callBack ∉ events) : Tracked events .null
  | list {callbacks : List CallBack} (hregistered : registered events = callbacks)
      (hsome : ∃ callBack, .addLinkerCallBack callBack ∈ events)
      (hkept : ∀ callBack, ¬ [.addLinkerCallBack callBack, .cleanCallBack] <+ events) :
      Tracked events (.list callbacks)
  | deleted (callBack : CallBack)
      (hcleaned : [.addLinkerCallBack callBack, .cleanCallBack] <+ events) : Tracked events .deleted

/-- What is registered after one more event. -/
theorem registered_concat (events : List Event) :
    registered (events ++ [e]) =
      match e with
      | .addLinkerCallBack callBack => registered events ++ [callBack]
      | .cleanCallBack => []
      | .load _ => registered events := by
  rw [registered, List.foldl_concat]
  rfl

/-- One event keeps the account of what came before. -/
theorem Tracked.step {p : Pointer} (h : Tracked events p) : Tracked (events ++ [e]) (e.step p) := by
  cases h with
  | null hregistered hnone =>
    cases e with
    | addLinkerCallBack callBack =>
      refine .list ?_ ⟨callBack, List.mem_append_right _ List.mem_cons_self⟩ ?_
      · rw [registered_concat, hregistered]
        rfl
      · intro other
        apply not_cleaned_concat (e := .addLinkerCallBack callBack) nofun
        exact fun hcleaned => hnone other (hcleaned.subset List.mem_cons_self)
    | cleanCallBack =>
      refine .null ((registered_concat _ _).trans rfl) ?_
      intro callBack hmem
      exact hnone callBack (by simpa using hmem)
    | load intercepted =>
      refine .null ((registered_concat _ _).trans hregistered) ?_
      intro callBack hmem
      exact hnone callBack (by simpa using hmem)
  | list hregistered hsome hkept =>
    obtain ⟨first, hfirst⟩ := hsome
    cases e with
    | addLinkerCallBack callBack =>
      refine .list ?_ ⟨first, List.mem_append_left _ hfirst⟩ ?_
      · rw [registered_concat, hregistered]
      · intro other
        exact not_cleaned_concat (e := .addLinkerCallBack callBack) nofun (hkept other)
    | cleanCallBack => exact .deleted first ((cleaned_concat _ first).mpr (.inr ⟨rfl, hfirst⟩))
    | load intercepted =>
      refine .list ((registered_concat _ _).trans hregistered)
        ⟨first, List.mem_append_left _ hfirst⟩ ?_
      intro other
      exact not_cleaned_concat (e := .load intercepted) nofun (hkept other)
  | deleted callBack hcleaned =>
    have hstill : e.step .deleted = .deleted := by cases e <;> rfl
    rw [hstill]
    exact .deleted callBack ((cleaned_concat e callBack).mpr (.inl hcleaned))

/-- The list pointer behind every run accounts for it. -/
theorem tracked_run (events : List Event) : Tracked events (run events) := by
  induction events using List.reverseRecOn with
  | nil => exact .null rfl fun _ => List.not_mem_nil
  | append_singleton events e ih =>
    rw [run_concat]
    exact ih.step e

/-- The list has been deleted exactly when a cleaning came behind a registration. -/
theorem run_eq_deleted_iff (events : List Event) :
    run events = .deleted ↔
      ∃ callBack, [.addLinkerCallBack callBack, .cleanCallBack] <+ events := by
  have h := tracked_run events
  generalize run events = p at h
  cases h with
  | null _ hnone =>
    refine iff_of_false nofun ?_
    intro hcleaned
    obtain ⟨callBack, hcleaned⟩ := hcleaned
    exact hnone callBack (hcleaned.subset List.mem_cons_self)
  | list _ _ hkept => exact iff_of_false nofun fun hcleaned => hkept _ hcleaned.choose_spec
  | deleted callBack hcleaned => exact iff_of_true rfl ⟨callBack, hcleaned⟩

/-- A list that has not been deleted holds the registered callbacks. -/
theorem callbacks_run (h : run events ≠ .deleted) : (run events).callbacks = registered events := by
  have htracked := tracked_run events
  generalize run events = p at h htracked
  cases htracked with
  | null hregistered _ => exact hregistered.symm
  | list hregistered _ _ => exact hregistered.symm
  | deleted _ _ => exact absurd rfl h

/-- A load or a registration shows what it is to show exactly when it uses no deleted list. -/
theorem Event.shows_eq_intended_iff (linkerIoRedirect : Redirect) {e : Event}
    (he : e ≠ .cleanCallBack) :
    e.shows linkerIoRedirect (run events) = e.intended linkerIoRedirect (registered events) ↔
      (e.usesList = true → run events ≠ .deleted) := by
  by_cases hdeleted : run events = .deleted
  · rw [hdeleted]
    cases e with
    | addLinkerCallBack callBack => exact iff_of_false (List.cons_ne_nil _ _) fun h => h rfl rfl
    | cleanCallBack => exact absurd rfl he
    | load intercepted =>
      change intercepted.shows _ _ = intercepted.intended _ _ ↔ (intercepted.hasPath = true → _)
      cases hpath : intercepted.hasPath with
      | false =>
        exact iff_of_true (Load.shows_of_no_path linkerIoRedirect _ _ intercepted hpath) nofun
      | true =>
        refine iff_of_false ?_ fun h => h rfl rfl
        intro hsame
        have huse := Load.usesDeleted_mem linkerIoRedirect intercepted hpath
        rw [hsame] at huse
        exact Load.usesDeleted_notMem_intended linkerIoRedirect _ intercepted huse
  · refine iff_of_true ?_ fun _ => hdeleted
    cases e with
    | addLinkerCallBack callBack => exact if_neg hdeleted
    | cleanCallBack => exact absurd rfl he
    | load intercepted =>
      rw [← callbacks_run hdeleted]
      exact Load.shows_eq_intended linkerIoRedirect hdeleted intercepted

/-- Nothing uses a deleted list exactly when no event that uses the list comes behind a
registration and a cleaning. -/
theorem listKept_iff (events : List Event) :
    ListKept events ↔ ∀ before e after, events = before ++ e :: after → e.usesList = true →
      run before ≠ .deleted := by
  constructor
  · intro h before e after hsplit huses hdeleted
    obtain ⟨callBack, hcleaned⟩ := (run_eq_deleted_iff before).mp hdeleted
    apply h callBack e huses
    rw [hsplit]
    exact hcleaned.append (List.singleton_sublist.mpr List.mem_cons_self)
  · intro h callBack e huses hsub
    have happend : [.addLinkerCallBack callBack, .cleanCallBack] ++ [e] <+ events := hsub
    obtain ⟨before, rest, hsplit, hcleaned, hrest⟩ := List.append_sublist_iff.mp happend
    obtain ⟨middle, after, rfl⟩ := List.append_of_mem (List.singleton_sublist.mp hrest)
    apply h (before ++ middle) e after (by rw [hsplit, List.append_assoc]) huses
    rw [run_eq_deleted_iff]
    exact ⟨callBack, hcleaned.trans (List.sublist_append_left _ _)⟩

/-- Every load shows each registered callback once before and once after its original, and
nothing deleted is used, exactly when nothing goes through the list after it was cleaned. -/
theorem eachLoadOnce_iff_listKept (linkerIoRedirect : Redirect) (events : List Event) :
    EachLoadOnce linkerIoRedirect events ↔ ListKept events := by
  rw [listKept_iff]
  constructor
  · intro h before e after hsplit huses
    have hclean : e ≠ .cleanCallBack := by
      intro he
      subst he
      cases huses
    exact (Event.shows_eq_intended_iff linkerIoRedirect hclean).mp
      (h before e after hsplit hclean) huses
  · intro h before e after hsplit hclean
    exact (Event.shows_eq_intended_iff linkerIoRedirect hclean).mpr (h before e after hsplit)

/-- A callback, a cleaning and a load: the load goes through the deleted list. -/
theorem load_after_clean :
    ¬ EachLoadOnce none
      [.addLinkerCallBack 1, .cleanCallBack,
        .load (.mk (.dlopen_CI (some (c_str [0x61])) 0) 1 [])] := by
  intro h
  have hshows := h [.addLinkerCallBack 1, .cleanCallBack] _ [] rfl nofun
  cases hshows

end Runs

end XposedJniTrace.LinkerHandler
