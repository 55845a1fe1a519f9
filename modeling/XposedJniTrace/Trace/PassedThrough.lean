import XposedJniTrace.Jni.Transparent
import XposedJniTrace.Trace.DlInfo

/-!
# Callers that belong to no library

A call from an address in no library is passed through, whatever the variable of its wrapper holds,
exactly when no wrapper would match any caller: in the mode that hooks everything the name is read
at once, and in the other mode for the first filter. The callback for registered methods always
reads the name.
-/

namespace XposedJniTrace

open Mylibc

/-- A wrapper does the same for any two contents of its variable, and for a caller that `dladdr`
does not know the call is not traced, no name is stored, and the original is called. -/
structure PassedThrough {α : Type} (process : Process) (address : ℕ) (match_so_name : List UInt8)
    (run : Dl_info → Option α) (plain : Option α) : Prop where
  identical : ∀ first second, run first = run second
  untraced : process.dladdr address = none → ∀ info,
    process.listed address info match_so_name = some (false, match_so_name) ∧ run info = plain

/-- The caller is in a library, or there are no callers to match. -/
def Process.Settled (process : Process) (address : ℕ) : Prop :=
  process.dladdr address ≠ none ∨ (process.cfg.isHookAll = false ∧ process.cfg.filterSoList = [])

section Lister

variable {memory : Memory} {cfg : Config} {match_so_name : List UInt8} {name : ℕ}

/-- A string is searched as it is. -/
theorem Memory.my_strstr_string {path : CString} (h : memory.cstr name = some path)
    (find : CString) :
    memory.my_strstr name find = some (Mylibc.my_strstr path.bytes find.bytes).isSome := by
  have hname : name ≠ 0 := by
    rintro rfl
    rw [memory.null] at h
    cases h
  rw [Memory.my_strstr, h]
  split_ifs with hempty
  · rw [hempty]
    exact congrArg some (decide_eq_true hname)
  · rfl

/-- On a string, `isLister` answers as it does for the path. -/
theorem Memory.isLister_string {path : CString} (h : memory.cstr name = some path) :
    memory.isLister cfg match_so_name name = some (isListerBody cfg match_so_name path) := by
  have hany (names : List (List UInt8)) :
      (names.anyM fun find => memory.my_strstr name (c_str find)) =
        some (names.any fun find => (Mylibc.my_strstr path.bytes (c_str find).bytes).isSome) := by
    have hfind : (fun find => memory.my_strstr name (c_str find)) =
        fun find => pure (Mylibc.my_strstr path.bytes (c_str find).bytes).isSome := by
      funext find
      exact memory.my_strstr_string h (c_str find)
    rw [hfind]
    exact List.anyM_pure
  have happ : memory.isAppFile name = some (XposedJniTrace.isAppFile path) :=
    memory.my_strstr_string h _
  have hfile : memory.getFileNameForPath name = some (XposedJniTrace.getFileNameForPath path) := by
    rw [Memory.getFileNameForPath, h, Option.map_some]
  rw [Memory.isLister, isListerBody, hany, hany, happ, hfile]
  simp only [Option.bind_eq_bind, Option.bind_some, Option.pure_def]
  split_ifs <;> rfl

/-- Where no string is, looking for anything ends the run. -/
theorem Memory.my_strstr_no_string (h : memory.cstr name = none) {find : CString}
    (hfind : find.bytes ≠ []) : memory.my_strstr name find = none := by
  rw [Memory.my_strstr, if_neg hfind, h, Option.map_none]

/-- Where a name cannot be read, the test of it does not return. -/
theorem Memory.isAppFile_no_string (h : memory.cstr name = none) : memory.isAppFile name = none :=
  memory.my_strstr_no_string h (by decide)

/-- Without a string, there is no match. -/
theorem Memory.isLister_no_string (h : memory.cstr name = none) {answer : Bool × List UInt8}
    (hanswer : memory.isLister cfg match_so_name name = some answer) : answer =
    (false, match_so_name) := by
  have hfile : memory.getFileNameForPath name = none := by
    rw [Memory.getFileNameForPath, h, Option.map_none]
  rw [Memory.isLister, memory.isAppFile_no_string h, hfile] at hanswer
  split_ifs at hanswer with hmode
  · cases hanswer
  · cases hfilter : cfg.filterSoList.anyM fun filter => memory.my_strstr name (c_str filter) with
    | none =>
      rw [hfilter] at hanswer
      cases hanswer
    | some found =>
      rw [hfilter] at hanswer
      cases found with
      | false => exact (Option.some.inj hanswer).symm
      | true => cases hanswer

/-- Whatever the name is, it is not matched and not stored, exactly when there are no callers to
match. -/
theorem Memory.isLister_passes_iff :
    (∀ name, memory.isLister cfg match_so_name name = some (false, match_so_name)) ↔
      cfg.isHookAll = false ∧ cfg.filterSoList = [] := by
  constructor
  · intro h
    have hnull := h 0
    have hmode : cfg.isHookAll = false := by
      by_contra hmode
      rw [Memory.isLister, if_pos ((Bool.not_eq_false _).mp hmode),
        memory.isAppFile_no_string memory.null] at hnull
      cases hnull
    refine ⟨hmode, ?_⟩
    rw [Memory.isLister, hmode, if_neg Bool.false_ne_true] at hnull
    cases hfilters : cfg.filterSoList with
    | nil => rfl
    | cons filter rest =>
      by_cases hempty : (c_str filter).bytes = []
      · -- an empty filter matches every string
        obtain ⟨name, hname⟩ := memory.exists_string
        obtain ⟨path, hpath⟩ := Option.isSome_iff_exists.mp hname
        have hmatch : (isListerBody cfg match_so_name path).1 = true :=
          (isLister_of_filter hmode path match_so_name).mpr
            ⟨filter, hfilters ▸ List.mem_cons_self, hempty ▸ List.nil_infix⟩
        have hanswer := (memory.isLister_string hpath).symm.trans (h name)
        rw [Option.some.inj hanswer] at hmatch
        cases hmatch
      · -- any other filter is looked for behind a null pointer
        rw [hfilters, List.anyM, memory.my_strstr_no_string memory.null hempty] at hnull
        cases hnull
  · intro h name
    rw [Memory.isLister, h.1, if_neg Bool.false_ne_true, h.2]
    rfl

end Lister

section Wrappers

variable {process : Process} {address : ℕ} {match_so_name : List UInt8}

/-- A call that is passed through is made in a settled process: where `dladdr` fails, the name is
whatever the variable holds. -/
theorem PassedThrough.settled {α : Type} {run : Dl_info → Option α} {plain : Option α}
    (h : PassedThrough process address match_so_name run plain) : process.Settled address := by
  by_contra hunsettled
  obtain ⟨hknown, hmatches⟩ := not_or.mp hunsettled
  have hunknown := not_not.mp hknown
  have hpasses : ∀ name, process.memory.isLister process.cfg match_so_name name =
      some (false, match_so_name) := by
    intro name
    have huntraced := (h.untraced hunknown ⟨name, 0⟩).1
    rw [Process.listed, DL_INFO, hunknown] at huntraced
    exact huntraced
  exact hmatches (Memory.isLister_passes_iff.mp hpasses)

/-- Where `dladdr` knows the caller, what the variable held does not matter. -/
theorem DL_INFO_known {known : Dl_info} (h : process.dladdr address = some known) (info : Dl_info) :
    DL_INFO process.dladdr address info = known := by
  rw [DL_INFO, h, Option.getD_some]

/-- A wrapper that goes on with what is in its variable, and for a caller that does not match with
its original, passes the call through in a settled process. -/
theorem Process.Settled.passedThrough (h : process.Settled address) {α : Type}
    {goOn : Dl_info → Bool × List UInt8 → Option α} {plain : Option α}
    (hplain : ∀ info, process.memory.isLister process.cfg match_so_name info.dli_fname =
      some (false, match_so_name) → goOn info (false, match_so_name) = plain) :
    PassedThrough process address match_so_name
      (fun info => (process.listed address info match_so_name).bind
        (goOn (DL_INFO process.dladdr address info))) plain := by
  cases hdladdr : process.dladdr address with
  | some known =>
    refine ⟨?_, fun hnone => absurd (hdladdr.symm.trans hnone) nofun⟩
    intro first second
    simp only [Process.listed, DL_INFO_known hdladdr]
  | none =>
    have hpasses : ∀ name, process.memory.isLister process.cfg match_so_name name =
        some (false, match_so_name) :=
      Memory.isLister_passes_iff.mpr (h.resolve_left (not_not_intro hdladdr))
    have hlisted (info : Dl_info) :
        process.listed address info match_so_name = some (false, match_so_name) := hpasses _
    have hrun (info : Dl_info) : (process.listed address info match_so_name).bind
        (goOn (DL_INFO process.dladdr address info)) = plain := by
      rw [hlisted info, Option.bind_some]
      exact hplain _ (hpasses _)
    exact ⟨fun first second => (hrun first).trans (hrun second).symm,
      fun _ info => ⟨hlisted info, hrun info⟩⟩

/-- A wrapper passes its calls through whatever the variable holds exactly when its address is
settled, where it does so for a file that is not listed. -/
theorem passedThrough_iff_settled (process : Process) (address : ℕ) (match_so_name : List UInt8)
    {α : Type} (goOn : Dl_info → Bool × List UInt8 → Option α) (plain : Option α)
    (hplain : ∀ info, process.memory.isLister process.cfg match_so_name info.dli_fname =
      some (false, match_so_name) → goOn info (false, match_so_name) = plain) :
    PassedThrough process address match_so_name
        (fun info => (process.listed address info match_so_name).bind
          (goOn (DL_INFO process.dladdr address info))) plain ↔
      process.Settled address :=
  ⟨PassedThrough.settled, fun h => h.passedThrough hplain⟩

/-- The wrappers of the JNI tracer. -/
theorem Jni.wrapperAt_passes_iff {abi : Variadic.Abi} {W : Type} (vm : Jni.JavaVM abi W)
    (act : Jni.Activation abi W) {k : Jni.Kind} (request : Jni.Request abi k)
    (s : Jni.State abi W) :
    PassedThrough process address match_so_name
        (Jni.wrapperAt process address vm act request match_so_name s)
        ((act.orig request s).map fun (ret, s) => (ret, match_so_name, s)) ↔
      process.Settled address := by
  let goOn : Dl_info → Bool × List UInt8 → Option (k.Value × List UInt8 × Jni.State abi W) :=
    fun _ answer => (Jni.wrapper vm { act with listed := answer.1 } request s).map
      fun (ret, s) => (ret, answer.2, s)
  apply passedThrough_iff_settled process address match_so_name goOn
  intro info _
  change (Jni.wrapper vm { act with listed := false } request s).map _ = _
  rw [Jni.wrapper_unlisted vm rfl]

namespace stringHandlerHook

open Variadic (Abi)

variable {abi : Abi} {State : Type} {libc : Libc abi State} {env : Env abi} {m : Machine abi State}

/-- What a wrapper goes on in gives the answer that `isLister` gave. -/
theorem checkLister_at (env : Env abi) (m : Machine abi State) {name : ℕ}
    {answer : Bool × List UInt8}
    (h : process.memory.isLister env.cfg m.match_so_name name = some answer) :
    checkLister (env.at (process.memory.cstr name)) m =
      some (answer.1, { m with match_so_name := answer.2 }) := by
  cases hname : process.memory.cstr name with
  | some path =>
    rw [Memory.isLister_string hname] at h
    rw [← Option.some.inj h]
    rfl
  | none =>
    rw [Memory.isLister_no_string hname h]
    rfl

/-- For a caller that does not match, a wrapper is its original with what is passed on. -/
theorem hook_of_checkLister (va : abi.VaList) (fn : Fn abi.VaList)
    (h : checkLister env m = some (false, m)) :
    hook libc env va fn m = orig libc env fn (passedOn va fn) m := by
  have hcheck {listed : Hook abi State ℤ} (variadic : List Variadic.Arg) :
      (do if ← checkLister env then listed else orig libc env fn variadic) m =
        orig libc env fn variadic m := by
    rw [run_bind, h]
    rfl
  cases fn <;> exact hcheck _

/-- The wrappers of the libc tracer. -/
theorem hookAt_passes_iff (va : abi.VaList) (fn : Fn abi.VaList) :
    PassedThrough process address m.match_so_name (hookAt process address libc env va fn m)
        (orig libc env fn (passedOn va fn) m) ↔ process.Settled address := by
  let own : Env abi := { env with cfg := process.cfg }
  let goOn : Dl_info → Bool × List UInt8 → Option (ℤ × Machine abi State) :=
    fun info _ => hook libc (own.at (process.memory.cstr info.dli_fname)) va fn m
  apply passedThrough_iff_settled process address m.match_so_name goOn
  intro info hpasses
  have hcheck : checkLister (own.at (process.memory.cstr info.dli_fname)) m = some (false, m) :=
    checkLister_at own m hpasses
  have horig (path : Option CString) : orig libc (own.at path) fn (passedOn va fn) m =
      orig libc env fn (passedOn va fn) m := by
    cases path with
    | none => rfl
    | some path => rfl
  change hook libc _ va fn m = _
  rw [hook_of_checkLister va fn hcheck, horig]

/-- The wrappers of the functions of `std::string`. -/
theorem stringAt_passes_iff (std : StdString State) (fn : StringFn) (m : Strings State) :
    PassedThrough process address m.match_so_name (stringAt process address std fn m)
        (some (m.orig std fn)) ↔ process.Settled address := by
  let goOn : Dl_info → Bool × List UInt8 → Option (ℕ × Strings State) :=
    fun _ answer =>
      let m := { m with match_so_name := answer.2 }
      if answer.1 then
        (std.text m.state fn.thiz).bind fun msg =>
          if msg = [] then some (Strings.orig std fn m) else none
      else some (Strings.orig std fn m)
  exact passedThrough_iff_settled process address m.match_so_name goOn _ fun _ _ => rfl

end stringHandlerHook

/-- The callback for registered methods does the same for any two contents of its variable exactly
when it returns early, or the method is in a library. -/
theorem invokePrintf.registerNative_iff (process : Process) (prettyMethod : ℕ → List UInt8)
    (bits : ℕ) (isSave : Bool) (method native_method : ℕ) :
    (∀ first second, RegisterNativeCallBack process prettyMethod bits isSave method
      native_method first =
        RegisterNativeCallBack process prettyMethod bits isSave method native_method second) ↔
      (method = 0 ∨ native_method = 0) ∨ process.dladdr native_method ≠ none := by
  by_cases hearly : method = 0 ∨ native_method = 0
  · refine iff_of_true ?_ (.inl hearly)
    intro first second
    rw [RegisterNativeCallBack, RegisterNativeCallBack, if_pos hearly, if_pos hearly]
  · rw [or_iff_right hearly]
    simp only [RegisterNativeCallBack, if_neg hearly]
    constructor
    · intro h hunknown
      obtain ⟨name, hname⟩ := process.memory.exists_string
      obtain ⟨path, hpath⟩ := Option.isSome_iff_exists.mp hname
      have hnull := h ⟨0, 0⟩ ⟨name, 0⟩
      simp only [DL_INFO, hunknown, Option.getD_none, Memory.getFileNameForPath,
        process.memory.null, hpath] at hnull
      cases hnull
    · intro hknown first second
      obtain ⟨known, hdladdr⟩ := Option.ne_none_iff_exists'.mp hknown
      simp only [DL_INFO_known hdladdr]

end Wrappers

/-- Callers in no library are passed through, and the callback does not depend on what its variable
holds, each exactly under its condition. -/
theorem noLibrary_iff (process : Process) (address : ℕ) (match_so_name : List UInt8) :
    (∀ (abi : Variadic.Abi) (W : Type) (vm : Jni.JavaVM abi W) (act : Jni.Activation abi W)
        (k : Jni.Kind) (request : Jni.Request abi k) (s : Jni.State abi W),
      PassedThrough process address match_so_name
          (Jni.wrapperAt process address vm act request match_so_name s)
          ((act.orig request s).map fun (ret, s) => (ret, match_so_name, s)) ↔
        process.Settled address) ∧
    (∀ (abi : Variadic.Abi) (State : Type) (libc : stringHandlerHook.Libc abi State)
        (env : stringHandlerHook.Env abi) (va : abi.VaList) (fn : stringHandlerHook.Fn abi.VaList)
        (m : stringHandlerHook.Machine abi State),
      PassedThrough process address m.match_so_name
          (stringHandlerHook.hookAt process address libc env va fn m)
          (stringHandlerHook.orig libc env fn (stringHandlerHook.passedOn va fn) m) ↔
        process.Settled address) ∧
    (∀ (State : Type) (std : stringHandlerHook.StdString State) (fn : stringHandlerHook.StringFn)
        (m : stringHandlerHook.Strings State),
      PassedThrough process address m.match_so_name
          (stringHandlerHook.stringAt process address std fn m) (some (m.orig std fn)) ↔
        process.Settled address) ∧
    ∀ (prettyMethod : ℕ → List UInt8) (bits : ℕ) (isSave : Bool) (method native_method : ℕ),
      (∀ first second,
        invokePrintf.RegisterNativeCallBack process prettyMethod bits isSave method
          native_method first =
          invokePrintf.RegisterNativeCallBack process prettyMethod bits isSave method native_method
            second) ↔
        (method = 0 ∨ native_method = 0) ∨ process.dladdr native_method ≠ none :=
  ⟨fun _ _ vm act _ request s => Jni.wrapperAt_passes_iff vm act request s,
    fun _ _ _ _ va fn _ => stringHandlerHook.hookAt_passes_iff va fn,
    fun _ std fn m => stringHandlerHook.stringAt_passes_iff std fn m,
    invokePrintf.registerNative_iff process⟩

namespace stringHandlerHook

/-- A stream with its lines, and the buffer that they are read into. -/
def lineReader : Libc Variadic.arm64 (Java.Text × List Java.Text) where
  kinds _ _ := []
  run fn _ state :=
    match fn, state.2 with
    | .fgets buf _ _, line :: rest => (buf, (line, rest))
    | _, _ => (0, state)
  cstr state _ := some state.1
  bytes _ _ n := List.replicate n 0
  bytes_length _ _ _ := List.length_replicate

/-- Two lines are to be read. -/
def twoLines : Machine Variadic.arm64 (Java.Text × List Java.Text) :=
  ⟨([], [ascii "first\n", ascii "second\n"]), [], []⟩

/-- A call that reads a line into memory. -/
def readLine : Request lineReader twoLines.state where
  fn := .fgets 1 64 2
  start := Variadic.Arm64.behind 3 0
  args := []
  named := ⟨rfl, rfl⟩
  fixed _ := rfl
  accepted := List.nil_prefix

end stringHandlerHook

/-- A process that hooks everything, in whose memory there is one string and whose addresses are in
no library. -/
def unowned : Process where
  memory :=
    { cstr := fun p => if p = 1 then some Jni.libapp else none
      null := rfl
      exists_string := ⟨1, rfl⟩ }
  dladdr _ := none
  cfg := ⟨true, [], [ascii "libFunJni.so"]⟩

/-- A call of `strstr` from there is traced under the name that the variable happens to hold, and
ends the run for a null pointer. -/
theorem unowned_traced :
    let env : stringHandlerHook.Env Variadic.arm64 :=
      ⟨unowned.cfg, ownPath, stringHandlerHook.readLine.start, []⟩
    let m := stringHandlerHook.twoLines
    unowned.listed 0x1000 ⟨1, 0⟩ [] = some (true, ascii "libapp.so") ∧
      unowned.listed 0x1000 ⟨0, 0⟩ [] = none ∧
      ¬ PassedThrough unowned 0x1000 m.match_so_name
        (stringHandlerHook.hookAt unowned 0x1000 stringHandlerHook.lineReader env
          stringHandlerHook.readLine.va (.strstr 1 1) m)
        (stringHandlerHook.orig stringHandlerHook.lineReader env (.strstr 1 1) [] m) := by
  intro env m
  have hlisted : unowned.listed 0x1000 ⟨1, 0⟩ [] = some (true, ascii "libapp.so") := by
    decide +kernel
  refine ⟨hlisted, rfl, ?_⟩
  intro h
  have huntraced := (h.untraced rfl ⟨1, 0⟩).1
  exact absurd (hlisted.symm.trans huntraced) (by decide)

end XposedJniTrace
