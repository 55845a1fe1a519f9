import XposedJniTrace.Trace.Mylibc
import Mathlib.Data.List.DropRight

/-!
# Which callers are traced

`isLister`, which `hook/JnitraceForC.cpp` and `hook/stringHandler.cpp` hold in identical copies,
with the file name of the caller that it stores on a match, and the activations of a tracer that
reports a call: in reporting it calls functions that are hooked as well, from its own library.
`startHookJni` starts both tracers with the same mode and lists, the forbidden one holding the
name of its own library. The list of forbidden names is read in the mode that hooks everything
only, which decides when the tracer's own calls are traced.
-/

namespace XposedJniTrace

open Mylibc

/-- What a tracer is started with. -/
structure Config where
  isHookAll : Bool
  filterSoList : List (List UInt8)
  forbidSoList : List (List UInt8)

/-- A file in the data directory, where apps are installed. -/
def isAppFile (path : CString) : Bool :=
  (my_strstr path.bytes (ascii "/data/")).isSome

/-- What stands behind the last slash of a path, or all of it. -/
def getFileNameForPath (path : CString) : List UInt8 :=
  path.bytes.rtakeWhile (· ≠ 47)

/-- The body of both copies of `isLister`: the answer, and `match_so_name` behind the call. -/
def isListerBody (cfg : Config) (match_so_name : List UInt8) (name : CString) :
    Bool × List UInt8 :=
  if cfg.isHookAll then
    if !isAppFile name then (false, match_so_name)
    else if cfg.forbidSoList.any fun forbid =>
      (my_strstr name.bytes (c_str forbid).bytes).isSome then
      (false, match_so_name)
    else (true, getFileNameForPath name)
  else
    if cfg.filterSoList.any fun filter => (my_strstr name.bytes (c_str filter).bytes).isSome then
      (true, getFileNameForPath name)
    else (false, match_so_name)

/-- `isLister` of the JNI tracer. -/
def JniTrace.isLister := isListerBody

/-- `isLister` of the string tracer, which has the same body. -/
def stringHandlerHook.isLister := isListerBody

/-- A path contains one of the names of a list. -/
def ContainsOne (names : List (List UInt8)) (path : CString) : Prop :=
  ∃ name ∈ names, (c_str name).bytes <:+: path.bytes

/-- The loops over the lists look for a name that the path contains. -/
theorem any_my_strstr (names : List (List UInt8)) (path : CString) :
    (names.any fun name => (my_strstr path.bytes (c_str name).bytes).isSome) = true ↔
      ContainsOne names path := by
  simp only [List.any_eq_true, my_strstr_isSome, ContainsOne]

/-- A match in the mode that hooks everything: an app file whose path holds no forbidden name. -/
theorem isLister_of_hookAll {cfg : Config} (h : cfg.isHookAll = true) (name : CString)
    (match_so_name : List UInt8) :
    (isListerBody cfg match_so_name name).1 = true ↔
      isAppFile name = true ∧ ¬ ContainsOne cfg.forbidSoList name := by
  rw [isListerBody, if_pos h, ← any_my_strstr]
  cases isAppFile name with
  | false => exact iff_of_false nofun (fun happ => nomatch happ.1)
  | true =>
    rw [Bool.not_true, if_neg Bool.false_ne_true]
    split_ifs with hforbid
    · exact iff_of_false nofun fun hfree => hfree.2 hforbid
    · exact iff_of_true rfl ⟨rfl, hforbid⟩

/-- A match in the other mode: the path holds a filter. The forbidden names are not read. -/
theorem isLister_of_filter {cfg : Config} (h : cfg.isHookAll = false) (name : CString)
    (match_so_name : List UInt8) :
    (isListerBody cfg match_so_name name).1 = true ↔ ContainsOne cfg.filterSoList name := by
  have hmode : ¬ cfg.isHookAll = true := by
    rw [h]
    exact nofun
  rw [isListerBody, if_neg hmode, ← any_my_strstr]
  split_ifs with hfilter
  · exact iff_of_true rfl hfilter
  · exact iff_of_false nofun hfilter

/-- A path with a forbidden name is not traced, exactly in the mode that hooks everything or when
no filter occurs in it. -/
theorem isLister_forbidden {cfg : Config} {own : CString} (hown : ContainsOne cfg.forbidSoList own)
    (match_so_name : List UInt8) :
    (isListerBody cfg match_so_name own).1 = false ↔
      cfg.isHookAll = true ∨ ¬ ContainsOne cfg.filterSoList own := by
  rw [← Bool.not_eq_true]
  cases h : cfg.isHookAll with
  | true =>
    rw [isLister_of_hookAll h]
    exact iff_of_true (fun hmatch => hmatch.2 hown) (.inl rfl)
  | false =>
    rw [isLister_of_filter h]
    exact (or_iff_right nofun).symm

/-! ## Activations -/

/-- The two tracers that decide by `isLister`. -/
inductive Tracer where
  | jniTrace
  | stringHandlerHook

/-- The `isLister` of a tracer. -/
def Tracer.isLister : Tracer → Config → List UInt8 → CString → Bool × List UInt8
  | jniTrace => JniTrace.isLister
  | stringHandlerHook => XposedJniTrace.stringHandlerHook.isLister

/-- A hooked function belongs to one of the tracers, and reporting a call of it makes calls of
hooked functions. -/
structure Hooks (Fn : Type*) where
  tracer : Fn → Tracer
  report : Fn → List Fn

variable {Fn : Type*}

/-- How deep the activations nest that a call of a hooked function causes, from a path, unless
they are deeper than the given number. A matching call is reported, and the calls made in reporting
it come from the tracer's own library. -/
def Hooks.depth (hooks : Hooks Fn) (cfg : Config) (own : CString) : ℕ → CString → Fn → Option ℕ
  | 0, _, _ => none
  | limit + 1, path, fn =>
    if ((hooks.tracer fn).isLister cfg [] path).1 then
      ((hooks.report fn).mapM (hooks.depth cfg own limit own)).map fun inner =>
        inner.foldl max 0 + 1
    else some 0

/-- The tracer's own calls are not traced: neither tracer matches its path, and a traced call
causes one activation. -/
def OwnUntraced (hooks : Hooks Fn) (cfg : Config) (own : CString) : Prop :=
  (∀ match_so_name, (JniTrace.isLister cfg match_so_name own).1 = false) ∧
  (∀ match_so_name, (stringHandlerHook.isLister cfg match_so_name own).1 = false) ∧
  ∀ path fn, ((hooks.tracer fn).isLister cfg [] path).1 = true →
    ∃ limit, hooks.depth cfg own limit path fn = some 1

/-- Own calls that are not matched nest no activation. -/
theorem depth_of_unmatched {hooks : Hooks Fn} {cfg : Config} {own path : CString} {fn : Fn}
    (hown : ∀ tracer : Tracer, (tracer.isLister cfg [] own).1 = false)
    (hmatch : ((hooks.tracer fn).isLister cfg [] path).1 = true) :
    hooks.depth cfg own 2 path fn = some 1 := by
  have hinner : ∀ g, hooks.depth cfg own 1 own g = some 0 := by
    intro g
    have hg : ¬ ((hooks.tracer g).isLister cfg [] own).1 = true := by
      rw [hown]
      exact nofun
    rw [Hooks.depth, if_neg hg]
  have hreport : ∀ calls : List Fn,
      calls.mapM (hooks.depth cfg own 1 own) = some (calls.map fun _ => 0) := by
    intro calls
    induction calls with
    | nil => rfl
    | cons g rest ih => simp only [List.mapM_cons, hinner, ih]; rfl
  have hmax : ∀ calls : List Fn, (calls.map fun _ => 0).foldl max 0 = 0 := by
    intro calls
    induction calls with
    | nil => rfl
    | cons g rest ih => exact ih
  rw [Hooks.depth, if_pos hmatch, hreport, Option.map_some, hmax]

/-- Own calls that are matched, and whose reports go on to make hooked calls, nest without end. -/
theorem depth_of_matched {hooks : Hooks Fn} {cfg : Config} {own : CString}
    (hown : ∀ tracer : Tracer, (tracer.isLister cfg [] own).1 = true)
    (hreport : ∀ fn, hooks.report fn ≠ []) (limit : ℕ) (fn : Fn) :
    hooks.depth cfg own limit own fn = none := by
  induction limit generalizing fn with
  | zero => rfl
  | succ limit ih =>
    obtain ⟨g, rest, hcalls⟩ := List.exists_cons_of_ne_nil (hreport fn)
    rw [Hooks.depth, if_pos (hown _), hcalls, List.mapM_cons, ih]
    rfl

/-- The tracer's own calls are not traced exactly in the mode that hooks everything, or when no
filter occurs in the path of its library. -/
theorem ownUntraced_iff (hooks : Hooks Fn) (cfg : Config) (own : CString)
    (hown : ContainsOne cfg.forbidSoList own) :
    OwnUntraced hooks cfg own ↔ cfg.isHookAll = true ∨ ¬ ContainsOne cfg.filterSoList own := by
  constructor
  · intro h
    exact (isLister_forbidden hown []).mp (h.1 [])
  · intro h
    have hfalse : ∀ match_so_name, (isListerBody cfg match_so_name own).1 = false :=
      fun match_so_name => (isLister_forbidden hown match_so_name).mpr h
    refine ⟨hfalse, hfalse, ?_⟩
    intro path fn hmatch
    refine ⟨2, depth_of_unmatched ?_ hmatch⟩
    intro tracer
    cases tracer with
    | jniTrace => exact hfalse []
    | stringHandlerHook => exact hfalse []

/-- The path of the tracer's own library in an installed app. -/
def ownPath : CString := c_str (ascii "/data/app/lib/arm64/libfunJni.so")

/-- Every reported call makes a hooked call. -/
def oneCall : Hooks Unit := ⟨fun _ => .jniTrace, fun fn => [fn]⟩

/-- A filter for another library leaves the tracer's own calls alone. -/
theorem ownUntraced_otherFilter :
    OwnUntraced oneCall ⟨false, [ascii "libapp.so"], [ascii "libfunJni.so"]⟩ ownPath := by
  have hown : ContainsOne [ascii "libfunJni.so"] ownPath :=
    (any_my_strstr _ _).mp (by decide +kernel)
  apply (ownUntraced_iff oneCall ⟨false, [ascii "libapp.so"], [ascii "libfunJni.so"]⟩
    ownPath hown).mpr
  right
  rw [← any_my_strstr]
  decide +kernel

/-- An empty filter string matches the tracer's own library, and its activations nest without
end. -/
theorem ownTraced_emptyFilter :
    ContainsOne [ascii "libfunJni.so"] ownPath ∧
    ¬ OwnUntraced oneCall ⟨false, [[]], [ascii "libfunJni.so"]⟩ ownPath ∧
    ∀ limit, oneCall.depth ⟨false, [[]], [ascii "libfunJni.so"]⟩ ownPath limit
      ownPath () = none := by
  have hmatch : (isListerBody ⟨false, [[]], [ascii "libfunJni.so"]⟩ [] ownPath).1 = true := by
    decide +kernel
  refine ⟨(any_my_strstr _ _).mp (by decide +kernel), ?_, ?_⟩
  · intro h
    exact absurd hmatch (Bool.not_eq_true _ ▸ h.1 [])
  · intro limit
    apply depth_of_matched
    · intro tracer
      cases tracer with
      | jniTrace => exact hmatch
      | stringHandlerHook => exact hmatch
    · exact fun _ => List.cons_ne_nil _ _

end XposedJniTrace
