import XposedJniTrace.Il2cpp.Tracer

/-!
# Instrumented methods and their records

What the records are there for: an address that is instrumented has one record, of a method with
this address that the filter lets through. The record comes behind the instrumentation, so that a
thread that enters the method in between finds none; what holds between the methods is that the
records are those of the instrumented addresses.
-/

namespace XposedJniTrace.Il2cpp

open HookUtils (Addr World addTrampoline DobbyInstrument)

/-- A record is of a method with its address, which the filter lets through. -/
structure ClosureUserData.Genuine (filter : Filter) (info : ClosureUserData) : Prop where
  address : info.method.methodPointer = info.orig_function_pointer
  ishook : Il2cpp.ishook filter info.method.methodInfoStr = true

/-- Each address that was instrumented has one record, which is genuine and which the callback
finds, and the counter is the number of records. -/
structure Attributable (filter : Filter) (s : Shared) : Prop where
  one_record : ∀ address ∈ s.installed, ∃ info,
    (s.methodInfoList.filter fun info => info.orig_function_pointer = address) = [info] ∧
      info.Genuine filter
  found : ∀ address ∈ s.installed, instrument_callback s address ≠ none
  counted : s.hookSize = s.methodInfoList.length

/-- In every state that some runs go through, each instrumented address is attributable. -/
def AlwaysAttributable (filter : Filter) (world : World) (runs : List Run) : Prop :=
  ∀ s ∈ fresh world :: visits filter (runs.flatMap il2cpp_tracer) (fresh world),
    Attributable filter s

/-- A method is instrumented: it has code, the filter lets it through, its address is not in Dobby's
table, and the backend does not fail. -/
structure Attempt.Instruments (filter : Filter) (world : World) (attempt : Attempt) : Prop where
  code : attempt.method.methodPointer ≠ 0
  ishook : Il2cpp.ishook filter attempt.method.methodInfoStr = true
  free : attempt.method.methodPointer ∉ world.table
  outcome : attempt.outcome = true

/-- No method of the runs is instrumented. -/
def NoneInstrumented (filter : Filter) (world : World) (runs : List Run) : Prop :=
  ∀ run ∈ runs, run.il2cpp_image_get_class = true →
    ∀ attempt ∈ run.attempts, ¬ attempt.Instruments filter world

section Steps

variable {filter : Filter} {world : World} {s : Shared} {attempt : Attempt}

/-- The state behind the instrumentation of a method. -/
def Shared.instrumented (s : Shared) (method : MethodInfo) : Shared :=
  { s with
    world := { s.world with patches := ⟨method.methodPointer, .dobbyInstrument⟩ :: s.world.patches }
    installed := method.methodPointer :: s.installed }

/-- A method that is instrumented goes through three states. -/
theorem traceMethod_of_instruments (h : attempt.Instruments filter s.world) :
    traceMethod filter attempt s =
      [s.instrumented attempt.method, pushBack attempt.method (s.instrumented attempt.method),
        countUp (pushBack attempt.method (s.instrumented attempt.method))] := by
  have hcall : addTrampoline attempt.outcome attempt.method.methodPointer s.world =
      (true, (s.instrumented attempt.method).world) := by
    rw [h.outcome]
    exact if_neg h.free
  rw [traceMethod, if_pos ⟨h.code, h.ishook⟩, hook_il2cpp_method, if_neg h.code, instrument, hcall]
  rfl

/-- A method that is not instrumented leaves everything as it is. -/
theorem traceMethod_of_not (h : ¬ attempt.Instruments filter s.world) :
    ∀ t ∈ traceMethod filter attempt s, t = s := by
  rw [traceMethod]
  split_ifs with hguard
  · obtain ⟨hcode, hhook⟩ := hguard
    have hfails : addTrampoline attempt.outcome attempt.method.methodPointer s.world =
        (false, s.world) := by
      by_cases htable : attempt.method.methodPointer ∈ s.world.table
      · exact if_pos htable
      · cases houtcome : attempt.outcome with
        | true => exact absurd ⟨hcode, hhook, htable, houtcome⟩ h
        | false => exact if_neg htable
    rw [hook_il2cpp_method, if_neg hcode, instrument, hfails]
    exact fun t ht => List.mem_singleton.mp ht
  · exact nofun

/-- Behind the instrumentation of the first method there is no record of it. -/
theorem not_attributable_of_no_record {t : Shared} {address : Addr}
    (hinstalled : address ∈ t.installed)
    (hrecords : t.methodInfoList = []) : ¬ Attributable filter t := by
  intro h
  obtain ⟨info, hone, -⟩ := h.one_record address hinstalled
  rw [hrecords] at hone
  cases hone

/-- The state that a call leaves is one that it goes through, or the state in front of it. -/
theorem behind_mem (s : Shared) (states : List Shared) : behind s states ∈ s :: states := by
  induction states generalizing s with
  | nil => exact List.mem_cons_self
  | cons t states ih =>
    rw [behind, List.getLastD_cons]
    exact List.mem_cons_of_mem s (ih t)

end Steps

/-- Nothing has been instrumented or recorded, and Dobby's table is as it was. -/
structure Untouched (world : World) (s : Shared) : Prop where
  table : s.world.table = world.table
  installed : s.installed = []
  records : s.methodInfoList = []
  count : s.hookSize = 0

/-- A statement does not instrument a method. -/
def Stmt.Quiet (filter : Filter) (world : World) : Stmt → Prop
  | method attempt => ¬ attempt.Instruments filter world
  | _ => True

section Quiet

variable {filter : Filter} {world : World} {s : Shared}

/-- What has not been touched can be attributed. -/
theorem Untouched.attributable (h : Untouched world s) : Attributable filter s := by
  refine ⟨?_, ?_, ?_⟩
  · rw [h.installed]
    exact nofun
  · rw [h.installed]
    exact nofun
  · rw [h.count, h.records]
    rfl

/-- Whether a method is instrumented depends on Dobby's table alone. -/
theorem Attempt.Instruments.of_table {attempt : Attempt} {w w' : World}
    (h : attempt.Instruments filter w) (htable : w.table = w'.table) :
    attempt.Instruments filter w' :=
  ⟨h.code, h.ishook, htable ▸ h.free, h.outcome⟩

/-- In a run that touches nothing an attempt instruments what it would at its start. -/
theorem Untouched.instruments_iff (h : Untouched world s) (attempt : Attempt) :
    attempt.Instruments filter s.world ↔ attempt.Instruments filter world :=
  ⟨fun hinstruments => hinstruments.of_table h.table,
    fun hinstruments => hinstruments.of_table h.table.symm⟩

/-- A quiet statement goes through untouched states. -/
theorem Untouched.states (h : Untouched world s) {stmt : Stmt} (hquiet : stmt.Quiet filter world) :
    ∀ t ∈ stmt.states filter s, Untouched world t := by
  cases stmt with
  | startBranchTrampoline =>
    intro t ht
    obtain rfl := List.mem_singleton.mp ht
    exact ⟨h.table, h.installed, h.records, h.count⟩
  | reset =>
    intro t ht
    obtain rfl := List.mem_singleton.mp ht
    exact ⟨h.table, h.installed, h.records, rfl⟩
  | method attempt =>
    intro t ht
    rw [traceMethod_of_not (mt (h.instruments_iff attempt).mp hquiet) t ht]
    exact h

/-- A statement that is not quiet goes through a state in which a record is missing. -/
theorem Untouched.not_attributable (h : Untouched world s) {stmt : Stmt}
    (hloud : ¬ stmt.Quiet filter world) : ∃ t ∈ stmt.states filter s, ¬ Attributable filter t := by
  cases stmt with
  | startBranchTrampoline => exact absurd trivial hloud
  | reset => exact absurd trivial hloud
  | method attempt =>
    have hinstruments := (h.instruments_iff attempt).mpr (not_not.mp hloud)
    change ∃ t ∈ traceMethod filter attempt s, _
    rw [traceMethod_of_instruments hinstruments]
    exact ⟨_, List.mem_cons_self, not_attributable_of_no_record List.mem_cons_self h.records⟩

/-- From an untouched state, every state is attributable exactly when every statement is quiet. -/
theorem Untouched.visits_iff (h : Untouched world s) (stmts : List Stmt) :
    (∀ t ∈ visits filter stmts s, Attributable filter t) ↔
      ∀ stmt ∈ stmts, stmt.Quiet filter world := by
  induction stmts generalizing s with
  | nil => exact iff_of_true nofun nofun
  | cons stmt rest ih =>
    rw [visits, List.forall_mem_append, List.forall_mem_cons]
    constructor
    · intro hall
      have hquiet : stmt.Quiet filter world := by
        by_contra hloud
        obtain ⟨t, ht, hnot⟩ := h.not_attributable hloud
        exact hnot (hall.1 t ht)
      have hnext : Untouched world (behind s (stmt.states filter s)) :=
        List.forall_mem_cons.mpr ⟨h, h.states hquiet⟩ _ (behind_mem s _)
      exact ⟨hquiet, (ih hnext).mp hall.2⟩
    · intro hall
      have hstates := h.states hall.1
      have hnext : Untouched world (behind s (stmt.states filter s)) :=
        List.forall_mem_cons.mpr ⟨h, hstates⟩ _ (behind_mem s _)
      exact ⟨fun t ht => (hstates t ht).attributable, (ih hnext).mpr hall.2⟩

/-- The statements of a run are quiet when it instruments nothing. -/
theorem quiet_il2cpp_tracer_iff (run : Run) :
    (∀ stmt ∈ il2cpp_tracer run, stmt.Quiet filter world) ↔
      (run.il2cpp_image_get_class = true →
        ∀ attempt ∈ run.attempts, ¬ attempt.Instruments filter world) := by
  rw [il2cpp_tracer, List.forall_mem_cons]
  split_ifs with hclass
  · rw [List.forall_mem_cons, List.forall_mem_map]
    exact ⟨fun h _ => h.2.2, fun h => ⟨trivial, trivial, h hclass⟩⟩
  · exact iff_of_true ⟨trivial, nofun⟩ fun h => absurd h hclass

/-- Every state of the runs has each instrumented address attributable exactly when the runs
instrument nothing: a record always comes behind its instrumentation. -/
theorem alwaysAttributable_iff (filter : Filter) (world : World) (runs : List Run) :
    AlwaysAttributable filter world runs ↔ NoneInstrumented filter world runs := by
  have hfresh : Untouched world (fresh world) := ⟨rfl, rfl, rfl, rfl⟩
  rw [AlwaysAttributable, List.forall_mem_cons, and_iff_right hfresh.attributable,
    hfresh.visits_iff, List.forall_mem_flatMap]
  exact forall₂_congr fun run _ => quiet_il2cpp_tracer_iff run

/-- A method that is instrumented is entered in front of its record. -/
theorem entered_unrecorded :
    ¬ AlwaysAttributable ⟨true, []⟩ (HookUtils.initial fun _ => none)
      [⟨true, [[[⟨⟨0x1000, [], []⟩, true⟩]]]⟩] := by
  have hfresh : Untouched (HookUtils.initial fun _ => none)
      (fresh (HookUtils.initial fun _ => none)) := ⟨rfl, rfl, rfl, rfl⟩
  intro h
  have hquiet := (hfresh.visits_iff _).mp fun t ht => h t (List.mem_cons_of_mem _ ht)
  exact hquiet (.method ⟨⟨0x1000, [], []⟩, true⟩) (by decide) ⟨by decide, rfl, nofun, rfl⟩

end Quiet

/-- Between the methods the records are those of the instrumented addresses, each once. -/
structure Recorded (filter : Filter) (s : Shared) : Prop where
  records : s.methodInfoList.map ClosureUserData.orig_function_pointer = s.installed.reverse
  once : s.installed.Nodup
  in_table : ∀ address ∈ s.installed, address ∈ s.world.table
  genuine : ∀ info ∈ s.methodInfoList, info.Genuine filter

section Recorded

variable {filter : Filter} {s : Shared}

/-- A method that is instrumented is recorded. -/
theorem Recorded.instrumented (h : Recorded filter s) {attempt : Attempt}
    (hinstruments : attempt.Instruments filter s.world) :
    Recorded filter (countUp (pushBack attempt.method (s.instrumented attempt.method))) := by
  refine ⟨?_, ?_, ?_, ?_⟩
  · change (s.methodInfoList ++ [_]).map _ = (attempt.method.methodPointer :: s.installed).reverse
    rw [List.map_append, h.records, List.reverse_cons]
    rfl
  · exact List.nodup_cons.mpr ⟨mt (h.in_table _) hinstruments.free, h.once⟩
  · intro address haddress
    rcases List.mem_cons.mp haddress with rfl | hearlier
    · exact List.mem_cons_self
    · exact List.mem_cons_of_mem _ (h.in_table address hearlier)
  · intro info hinfo
    rcases List.mem_append.mp hinfo with hearlier | hnew
    · exact h.genuine info hearlier
    · obtain rfl := List.mem_singleton.mp hnew
      exact ⟨rfl, hinstruments.ishook⟩

/-- A method that is not instrumented leaves the state as it is. -/
theorem behind_traceMethod_of_not {attempt : Attempt} (h : ¬ attempt.Instruments filter s.world) :
    behind s (traceMethod filter attempt s) = s := by
  rcases List.mem_cons.mp (behind_mem s (traceMethod filter attempt s)) with heq | hmem
  · exact heq
  · exact traceMethod_of_not h _ hmem

/-- A statement keeps the records those of the instrumented addresses. -/
theorem Recorded.behind (h : Recorded filter s) (stmt : Stmt) :
    Recorded filter (behind s (stmt.states filter s)) := by
  cases stmt with
  | startBranchTrampoline => exact ⟨h.records, h.once, h.in_table, h.genuine⟩
  | reset => exact ⟨h.records, h.once, h.in_table, h.genuine⟩
  | method attempt =>
    by_cases hinstruments : attempt.Instruments filter s.world
    · rw [Stmt.states, traceMethod_of_instruments hinstruments]
      exact h.instrumented hinstruments
    · rw [Stmt.states, behind_traceMethod_of_not hinstruments]
      exact h

/-- Runs keep the records those of the instrumented addresses. -/
theorem Recorded.execute (h : Recorded filter s) (stmts : List Stmt) :
    Recorded filter (execute filter stmts s) :=
  Runs.foldl_invariant (fun _ stmt _ h => h.behind stmt) h

/-- The records that the methods of a class add are counted. -/
theorem counted_methods (filter : Filter) (attempts : List Attempt) (s : Shared) :
    (execute filter (attempts.map .method) s).methodInfoList.length + s.hookSize =
      s.methodInfoList.length + (execute filter (attempts.map .method) s).hookSize := by
  induction attempts generalizing s with
  | nil => rfl
  | cons attempt rest ih =>
    have hrest := ih (behind s (traceMethod filter attempt s))
    change (execute filter (rest.map .method)
      (behind s (traceMethod filter attempt s))).methodInfoList.length +
      s.hookSize = s.methodInfoList.length +
        (execute filter (rest.map .method) (behind s (traceMethod filter attempt s))).hookSize
    by_cases hinstruments : attempt.Instruments filter s.world
    · have hbehind : behind s (traceMethod filter attempt s) =
          countUp (pushBack attempt.method (s.instrumented attempt.method)) := by
        rw [traceMethod_of_instruments hinstruments]
        rfl
      have hlength :
          (countUp
            (pushBack attempt.method (s.instrumented attempt.method))).methodInfoList.length =
          s.methodInfoList.length + 1 := List.length_append
      have hsize : (countUp (pushBack attempt.method (s.instrumented attempt.method))).hookSize =
          s.hookSize + 1 := rfl
      rw [hbehind, hlength, hsize] at hrest
      rw [hbehind]
      omega
    · rw [behind_traceMethod_of_not hinstruments] at hrest ⊢
      exact hrest

/-- A run counts the records that it adds. -/
theorem counted_run (run : Run) (hclass : run.il2cpp_image_get_class = true) (s : Shared) :
    (execute filter (il2cpp_tracer run) s).methodInfoList.length =
      s.methodInfoList.length + (execute filter (il2cpp_tracer run) s).hookSize := by
  have hcounted := counted_methods filter run.attempts
    { s with world := HookUtils.startBranchTrampoline s.world, hookSize := 0 }
  rw [il2cpp_tracer, if_pos hclass]
  exact hcounted

/-- In a list whose images under a function differ, the entries with an image that occurs are one
entry. -/
theorem filter_eq_singleton_of_nodup {α β : Type} [DecidableEq β] {f : α → β} {entries : List α}
    {b : β} (honce : (entries.map f).Nodup) (hb : b ∈ entries.map f) :
    ∃ a ∈ entries, (entries.filter fun a => f a = b) = [a] := by
  induction entries with
  | nil => cases hb
  | cons a entries ih =>
    rw [List.map_cons] at honce hb
    obtain ⟨hnotin, hrest⟩ := List.nodup_cons.mp honce
    by_cases hab : f a = b
    · refine ⟨a, List.mem_cons_self, ?_⟩
      rw [List.filter_cons, if_pos (decide_eq_true hab), List.filter_eq_nil_iff.mpr]
      intro a' ha' heq
      exact hnotin (List.mem_map.mpr ⟨a', ha', (of_decide_eq_true heq).trans hab.symm⟩)
    · obtain ⟨a', ha', hone⟩ := ih hrest (List.mem_of_ne_of_mem (Ne.symm hab) hb)
      refine ⟨a', List.mem_cons_of_mem a ha', ?_⟩
      rw [List.filter_cons, if_neg (mt of_decide_eq_true hab)]
      exact hone

/-- The records of an instrumented address are one record. -/
theorem Recorded.one_record (h : Recorded filter s) {address : Addr}
    (haddress : address ∈ s.installed) :
    ∃ info, (s.methodInfoList.filter fun info => info.orig_function_pointer = address) = [info] ∧
      info.Genuine filter := by
  have honce : (s.methodInfoList.map ClosureUserData.orig_function_pointer).Nodup := by
    rw [h.records]
    exact List.nodup_reverse.mpr h.once
  have hlisted : address ∈ s.methodInfoList.map ClosureUserData.orig_function_pointer := by
    rw [h.records]
    exact List.mem_reverse.mpr haddress
  obtain ⟨info, hinfo, hone⟩ := filter_eq_singleton_of_nodup honce hlisted
  exact ⟨info, hone, h.genuine info hinfo⟩

/-- Behind the first run every instrumented address is attributable. -/
theorem attributable_behind_first_run (filter : Filter) (world : World) (run : Run)
    (hclass : run.il2cpp_image_get_class = true) :
    Attributable filter (execute filter (il2cpp_tracer run) (fresh world)) := by
  have hfresh : Recorded filter (fresh world) := ⟨rfl, List.nodup_nil, nofun, nofun⟩
  have hrecorded := hfresh.execute (il2cpp_tracer run)
  have hcounted : (execute filter (il2cpp_tracer run) (fresh world)).methodInfoList.length =
      (fresh world).methodInfoList.length +
        (execute filter (il2cpp_tracer run) (fresh world)).hookSize :=
    counted_run run hclass (fresh world)
  refine ⟨fun address haddress => hrecorded.one_record haddress, ?_, ?_⟩
  · intro address haddress
    obtain ⟨info, hone, -⟩ := hrecorded.one_record haddress
    have hmem : info ∈ (execute filter (il2cpp_tracer run) (fresh world)).methodInfoList.filter
        fun info => info.orig_function_pointer = address := by
      rw [hone]
      exact List.mem_singleton.mpr rfl
    obtain ⟨hlisted, hat⟩ := List.mem_filter.mp hmem
    rw [instrument_callback, ne_eq, Option.map_eq_none_iff, List.find?_eq_none]
    exact fun hnone => hnone info hlisted hat
  · rw [hcounted]
    exact (Nat.zero_add _).symm

end Recorded

end XposedJniTrace.Il2cpp
