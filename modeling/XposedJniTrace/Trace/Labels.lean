import XposedJniTrace.Trace.Matching

/-!
# The label of a trace line

The hooks of `hook/JnitraceForC.cpp` as far as they decide which library a line is labelled
with. `match_so_name` is one variable: a matching call stores the file name of its caller in it,
and `write` reads it when a line is written. The calls of a thread form a tree, since the original
of a call, and the Java methods that a report runs, may come back to hooked functions from other
libraries. The texts of the lines are inputs here; `write` drops an empty text. The separator lines
of `write(msg, true)` carry no label and are left out.
-/

namespace XposedJniTrace.JniTrace

open Mylibc

/-- The types that a method or a field has a function of its own for. -/
inductive JType where
  | object
  | boolean
  | byte
  | char
  | short
  | int
  | long
  | float
  | double
  deriving DecidableEq

/-- The functions that `Jnitrace::init` hooks. -/
inductive Hooked where
  | callMethodV (result : JType)
  | callVoidMethodV
  | callStaticMethodV (result : JType)
  | callStaticVoidMethodV
  | getField (type : JType)
  | getStaticField (type : JType)
  | newStringUTF
  | getStringUTFChars
  | findClass
  | toReflectedMethod
  | fromReflectedMethod
  | getFieldID
  | getStaticFieldID
  | newObjectV
  deriving DecidableEq

/-- The hook reports in front of the original: receiver and arguments, or what it looks up. -/
def Hooked.reportsBefore : Hooked → Bool
  | callMethodV _ | callVoidMethodV | callStaticMethodV _ | callStaticVoidMethodV => true
  | newStringUTF | findClass | fromReflectedMethod | getFieldID | getStaticFieldID => true
  | getField _ | getStaticField _ | getStringUTFChars | toReflectedMethod | newObjectV => false

/-- The hook reports behind the original: the result, or the arguments of a constructor. -/
def Hooked.reportsAfter : Hooked → Bool
  | callMethodV _ | callStaticMethodV _ => true
  | getField _ | getStaticField _ | getStringUTFChars | toReflectedMethod | newObjectV => true
  | callVoidMethodV | callStaticVoidMethodV => false
  | newStringUTF | findClass | fromReflectedMethod | getFieldID | getStaticFieldID => false

mutual

/-- A call of a hooked function from the library at a path: the reports that its hook makes if the
call matches, and the calls that its original makes in between. -/
inductive Call where
  | mk (fn : Hooked) (path : CString) (before : Reports) (original : Calls) (after : Reports)

/-- Calls in their order. -/
inductive Calls where
  | nil
  | cons (call : Call) (rest : Calls)

/-- Reports in their order: the calls made by the Java methods that one runs, and its text. -/
inductive Reports where
  | nil
  | cons (java : Calls) (msg : List UInt8) (rest : Reports)

end

/-- A line of the trace: the caller of the call that it was written for, the label, the text. -/
structure Line where
  caller : CString
  label : List UInt8
  msg : List UInt8
  deriving DecidableEq

/-- A line is labelled with the file name of the caller. -/
def Line.Right (line : Line) : Prop := line.label = getFileNameForPath line.caller

/-- What runs between two points: `match_so_name` behind it, and the lines written. -/
abbrev Action := List UInt8 → List UInt8 × List Line

/-- Nothing runs. -/
def Action.skip : Action := fun name => (name, [])

/-- One action behind the other. -/
def Action.andThen (first second : Action) : Action := fun name =>
  let (name, lines) := first name
  let (name, more) := second name
  (name, lines ++ more)

/-- `write(msg)` in the hook of a call from `path`. -/
def write (path : CString) (msg : List UInt8) : Action := fun name =>
  if msg = [] then (name, []) else (name, [⟨path, name, msg⟩])

mutual

/-- A call: its own reports, in the order of its function, around what its original runs. -/
def Call.run (cfg : Config) : Call → Action
  | .mk fn path before original after => fun name =>
    let (matched, name) := isLister cfg name path
    if matched then
      ((if fn.reportsBefore then before.run cfg path else .skip).andThen
        ((original.run cfg).andThen
          (if fn.reportsAfter then after.run cfg path else .skip))) name
    else original.run cfg name

/-- Calls, one behind the other. -/
def Calls.run (cfg : Config) : Calls → Action
  | .nil => .skip
  | .cons call rest => (call.run cfg).andThen (rest.run cfg)

/-- Reports, each with the calls into Java that it makes first. -/
def Reports.run (cfg : Config) (path : CString) : Reports → Action
  | .nil => .skip
  | .cons java msg rest =>
    (java.run cfg).andThen ((write path msg).andThen (rest.run cfg path))

end

/-! ## The matching call started last -/

/-- A call from the path matches. -/
def matched (cfg : Config) (path : CString) : Bool := (isLister cfg [] path).1

mutual

/-- The file name of the matching call that was started last, within a call. -/
def Call.last (cfg : Config) : Call → Option (List UInt8)
  | .mk fn path before original after =>
    if matched cfg path then
      (((if fn.reportsAfter then after.last cfg else none).or (original.last cfg)).or
        (if fn.reportsBefore then before.last cfg else none)).or (some (getFileNameForPath path))
    else original.last cfg

/-- The same within calls, one behind the other. -/
def Calls.last (cfg : Config) : Calls → Option (List UInt8)
  | .nil => none
  | .cons call rest => (rest.last cfg).or (call.last cfg)

/-- The same within reports. -/
def Reports.last (cfg : Config) : Reports → Option (List UInt8)
  | .nil => none
  | .cons java _ rest => (rest.last cfg).or (java.last cfg)

end

mutual

/-- In every matching call, the matching call that was started last in front of a line has the
file name of the caller. -/
def Call.Clean (cfg : Config) : Call → Prop
  | .mk fn path before original after =>
    if matched cfg path then
      let own := getFileNameForPath path
      let entered := (if fn.reportsBefore then before.last cfg else none).getD own
      (fn.reportsBefore = true → before.Clean cfg own own) ∧ original.Clean cfg ∧
        (fn.reportsAfter = true → after.Clean cfg own ((original.last cfg).getD entered))
    else original.Clean cfg

/-- The same for calls, one behind the other. -/
def Calls.Clean (cfg : Config) : Calls → Prop
  | .nil => True
  | .cons call rest => call.Clean cfg ∧ rest.Clean cfg

/-- The reports of a call with the file name `own`, the matching call that was started last in
front of them having the file name `current`. -/
def Reports.Clean (cfg : Config) (own current : List UInt8) : Reports → Prop
  | .nil => True
  | .cons java msg rest =>
    java.Clean cfg ∧ (msg = [] ∨ (java.last cfg).getD current = own) ∧
      rest.Clean cfg own ((java.last cfg).getD current)

end

/-! ## Labels along a run -/

/-- An action leaves the label `last` behind, if any, and labels all its lines right exactly when
it is clean, for the label that it is entered with. -/
def Behaves (act : Action) (last : Option (List UInt8)) (clean : List UInt8 → Prop) : Prop :=
  ∀ name, (act name).1 = last.getD name ∧ ((∀ line ∈ (act name).2, line.Right) ↔ clean name)

/-- Where nothing runs the label stays, and no line is written. -/
theorem behaves_skip : Behaves .skip none fun _ => True := by
  intro name
  exact ⟨rfl, iff_of_true nofun trivial⟩

/-- Of two possible labels the later one counts, and without either the old one. -/
theorem getD_or {α : Type*} (second first : Option α) (a : α) :
    (second.or first).getD a = second.getD (first.getD a) := by
  cases second with
  | none => rfl
  | some b => rfl

/-- Actions in sequence: the second is entered with the label that the first leaves. -/
theorem Behaves.andThen {first second : Action} {last₁ last₂ : Option (List UInt8)}
    {clean₁ clean₂ : List UInt8 → Prop} (h₁ : Behaves first last₁ clean₁)
    (h₂ : Behaves second last₂ clean₂) :
    Behaves (first.andThen second) (last₂.or last₁)
      fun name => clean₁ name ∧ clean₂ (last₁.getD name) := by
  intro name
  obtain ⟨hlast₁, hclean₁⟩ := h₁ name
  obtain ⟨hlast₂, hclean₂⟩ := h₂ (last₁.getD name)
  refine ⟨?_, ?_⟩
  · rw [getD_or, ← hlast₂, ← hlast₁]
    rfl
  · have hlines : (first.andThen second name).2 =
      (first name).2 ++ (second (last₁.getD name)).2 := by
      rw [← hlast₁]
      rfl
    rw [hlines, List.forall_mem_append]
    exact and_congr hclean₁ hclean₂

/-- A written line is right when the label is the file name of the caller. -/
theorem behaves_write (path : CString) (msg : List UInt8) :
    Behaves (write path msg) none fun name => msg = [] ∨ name = getFileNameForPath path := by
  intro name
  by_cases h : msg = []
  · have hwrite : write path msg name = (name, []) := if_pos h
    rw [hwrite]
    exact ⟨rfl, iff_of_true nofun (.inl h)⟩
  · have hwrite : write path msg name = (name, [⟨path, name, msg⟩]) := if_neg h
    rw [hwrite]
    exact ⟨rfl, List.forall_mem_singleton.trans (or_iff_right h).symm⟩

/-- A part of a hook that is there or not. -/
theorem Behaves.onlyIf {act : Action} {last : Option (List UInt8)} {clean : List UInt8 → Prop}
    (h : Behaves act last clean) (b : Bool) :
    Behaves (if b then act else .skip) (if b then last else none) fun name =>
      b = true → clean name := by
  intro name
  cases b with
  | false => exact ⟨rfl, iff_of_true nofun nofun⟩
  | true =>
    obtain ⟨hlast, hclean⟩ := h name
    exact ⟨hlast, hclean.trans ⟨fun hc _ => hc, fun hc => hc rfl⟩⟩

/-- `isLister` stores the file name exactly when it matches. -/
theorem isLister_eq (cfg : Config) (name : List UInt8) (path : CString) :
    isLister cfg name path =
      if matched cfg path then (true, getFileNameForPath path) else (false, name) := by
  unfold matched isLister isListerBody
  split_ifs <;> simp_all

mutual

/-- A call behaves as said for the label that it is entered with. -/
theorem Call.behaves (cfg : Config) (call : Call) :
    Behaves (call.run cfg) (call.last cfg) fun _ => call.Clean cfg := by
  obtain ⟨fn, path, before, original, after⟩ := call
  have horiginal := original.behaves cfg
  intro name
  cases hmatch : matched cfg path with
  | false =>
    have hrun : (Call.mk fn path before original after).run cfg name = original.run cfg name := by
      simp only [Call.run, isLister_eq, hmatch]
      rfl
    simp only [hrun, Call.last, Call.Clean, hmatch]
    exact horiginal name
  | true =>
    have hparts := ((before.behaves cfg path).onlyIf fn.reportsBefore).andThen
      (horiginal.andThen ((after.behaves cfg path).onlyIf fn.reportsAfter))
    have hrun : (Call.mk fn path before original after).run cfg name = 
      ((if fn.reportsBefore then before.run cfg path else .skip).andThen
        ((original.run cfg).andThen
          (if fn.reportsAfter then after.run cfg path else .skip))) (getFileNameForPath path) := by
      simp only [Call.run, isLister_eq, hmatch]
      rfl
    simp only [hrun, Call.last, Call.Clean, hmatch, if_true, getD_or, Option.getD_some]
    obtain ⟨hlast, hclean⟩ := hparts (getFileNameForPath path)
    simp only [getD_or] at hlast
    exact ⟨hlast, hclean⟩

/-- Calls behave as said. -/
theorem Calls.behaves (cfg : Config) (calls : Calls) :
    Behaves (calls.run cfg) (calls.last cfg) fun _ => calls.Clean cfg := by
  cases calls with
  | nil => exact behaves_skip
  | cons call rest => exact (call.behaves cfg).andThen (rest.behaves cfg)

/-- Reports behave as said, for the label that they are entered with. -/
theorem Reports.behaves (cfg : Config) (path : CString) (reports : Reports) :
    Behaves (reports.run cfg path) (reports.last cfg)
      (reports.Clean cfg (getFileNameForPath path)) := by
  cases reports with
  | nil => exact behaves_skip
  | cons java msg rest =>
    have h := (java.behaves cfg).andThen ((behaves_write path msg).andThen (rest.behaves cfg path))
    rw [Option.or_none] at h
    exact h

end

/-- Every line of a tree of calls is labelled with the file name of the library that made its
call, exactly when the tree is clean. -/
theorem lines_right_iff (cfg : Config) (calls : Calls) (name : List UInt8) :
    (∀ line ∈ (calls.run cfg name).2, line.Right) ↔ calls.Clean cfg :=
  (calls.behaves cfg name).2

/-- The result of a call from one library is labelled with the library that its original came
back from. -/
theorem result_mislabelled :
    let cfg : Config := ⟨false, [ascii "liba.so", ascii "libb.so"], []⟩
    let outer := c_str (ascii "/data/app/liba.so")
    let inner := c_str (ascii "/data/app/libb.so")
    let call := Call.mk (.callMethodV .int) outer .nil
      (.cons (.mk .findClass inner (.cons .nil (ascii "find class : A") .nil) .nil .nil) .nil)
      (.cons .nil (ascii "result Int : 1") .nil)
    ∃ line ∈ (call.run cfg []).2, line.caller = outer ∧ line.label = ascii "libb.so" ∧
      ¬ line.Right := by
  intro cfg outer inner call
  refine ⟨⟨outer, ascii "libb.so", ascii "result Int : 1"⟩, ?_, rfl, rfl, ?_⟩
  · decide +kernel
  · unfold Line.Right
    decide +kernel

end XposedJniTrace.JniTrace
