import XposedJniTrace.Jni.Arguments

/-!
# The calls of an app under the tracer

A call of the app goes to the wrapper of the function, which decides by the library of the caller.
The tracer's own calls go to the wrappers as well, by the library of the tracer: with that library
listed a report never comes to an end, and otherwise the reports of a call go through under a
condition on what the app's words lead to.
-/

namespace XposedJniTrace.Jni

open Mylibc (CString c_str ascii)
open XposedJniTrace.Java (Prim Text)
open Variadic (Abi)

/-- What the tracer is set to, with the path of its own library. -/
structure Setting where
  cfg : Config
  own : CString
  /-- `to_string` of a floating-point number. -/
  floatString : {T : Prim} → T.Value → Text

/-- The caller matches. -/
def Setting.listed (setting : Setting) (caller : CString) : Bool :=
  (JniTrace.isLister setting.cfg [] caller).1

/-- A call with words of the app. -/
abbrev AppRequest (abi : Abi) : Kind → Type := Hooked ℕ ℕ abi.VaList

/-- The request that an application makes. -/
def AppRequest.request {abi : Abi} {k : Kind} (request : AppRequest abi k) : Request abi k :=
  Hooked.map .word .app .va request

section Calls

variable {abi : Abi} {W : Type} (vm : JavaVM abi W) (setting : Setting)

/-- The functions as the tracer finds them, where so many of its calls may be within one another. -/
def fromTable : ℕ → {k : Kind} → Request abi k → Hook abi W k.Value
  | 0, _, _ => forbidden
  | limit + 1, _, request =>
    wrapper vm ⟨setting.listed setting.own, fun request => fromTable limit request, ownCall vm,
      setting.floatString⟩ request

/-- A call of the original that is written down. -/
def recorded {k : Kind} (request : Request abi k) : Hook abi W k.Value := fun s =>
  appCall vm request { s with calls := s.calls ++ [⟨k, request⟩] }

/-- A call of the app. -/
def call (limit : ℕ) (caller : CString) {k : Kind} (request : AppRequest abi k) :
    Hook abi W k.Value :=
  wrapper vm ⟨setting.listed caller, fun request => fromTable vm setting limit request,
    fun request => recorded vm request, setting.floatString⟩ request.request

/-- The state in which a native method is called. -/
def enter (java : W) (locals : List ℕ) : State abi W :=
  ⟨⟨java, false, locals⟩, ⟨0, [], [], false⟩, [], []⟩

/-- How the original of a call ends. -/
def JavaVM.answer (vm : JavaVM abi W) (java : W) {k : Kind}
    (request : AppRequest abi k) : Outcome W :=
  vm.run request.request java

/-- The report of a method call goes through. -/
def CallShown (vm : JavaVM abi W) (java : W) (obj id : ℕ) (isStatic : Bool)
    (args : abi.VaList) : Prop :=
  (obj = 0 ∨ Shown vm java obj) ∧ (obj = 0 ∨ id = 0 ∨ Reflected vm java obj (.app id) isStatic args)

/-- The report of a result goes through. -/
def ResultShown (vm : JavaVM abi W) (out : Outcome W) : Prop :=
  out.word = 0 ∨ Shown vm out.java out.word

/-- `toString` of a class answers a text. -/
def Texted (vm : JavaVM abi W) (java : W) (w : ℕ) : Prop :=
  ∃ thing, vm.lookup java w = some thing ∧ ∃ text, (vm.view thing).toString = .text text

/-- The reports of a call go through. -/
def Reportable (vm : JavaVM abi W) (java : W) : {k : Kind} → AppRequest abi k → Prop
  | _, .CallObjectMethodV obj id args =>
    CallShown vm java obj id false args ∧
      ResultShown vm (vm.answer java (.CallObjectMethodV obj id args))
  | _, .CallVoidMethodV obj id args => CallShown vm java obj id false args
  | _, .CallPrimMethodV _ obj id args => CallShown vm java obj id false args
  | _, .CallStaticObjectMethodV obj id args =>
    CallShown vm java obj id true args ∧
      ResultShown vm (vm.answer java (.CallStaticObjectMethodV obj id args))
  | _, .CallStaticVoidMethodV obj id args => CallShown vm java obj id true args
  | _, .CallStaticPrimMethodV _ obj id args => CallShown vm java obj id true args
  | _, .NewObjectV clazz id args =>
    (vm.answer java (.NewObjectV clazz id args)).word = 0 ∨ id = 0 ∨
      Reflected vm (vm.answer java (.NewObjectV clazz id args)).java
        (vm.answer java (.NewObjectV clazz id args)).word (.app id) false args
  | _, .ToReflectedMethod clazz id isStatic =>
    ResultShown vm (vm.answer java (.ToReflectedMethod clazz id isStatic))
  | _, .FromReflectedMethod method => method = 0 ∨ Shown vm java method
  | _, .GetFieldID clazz _ _ => Texted vm java clazz
  | _, .GetStaticFieldID clazz name sig => Texted vm java clazz ∧ name.isSome ∧ sig.isSome
  | _, .GetObjectField argObj id => ResultShown vm (vm.answer java (.GetObjectField argObj id))
  | _, .GetStaticObjectField clazz id =>
    ResultShown vm (vm.answer java (.GetStaticObjectField clazz id))
  | _, _ => True

/-- A call makes the tracer look at an object. -/
def Describes (vm : JavaVM abi W) (java : W) : {k : Kind} → AppRequest abi k → Prop
  | _, .CallObjectMethodV obj id args =>
    obj ≠ 0 ∨ (vm.answer java (.CallObjectMethodV obj id args)).word ≠ 0
  | _, .CallVoidMethodV obj _ _ => obj ≠ 0
  | _, .CallPrimMethodV _ obj _ _ => obj ≠ 0
  | _, .CallStaticObjectMethodV obj id args =>
    obj ≠ 0 ∨ (vm.answer java (.CallStaticObjectMethodV obj id args)).word ≠ 0
  | _, .CallStaticVoidMethodV obj _ _ => obj ≠ 0
  | _, .CallStaticPrimMethodV _ obj _ _ => obj ≠ 0
  | _, .NewObjectV clazz id args => (vm.answer java (.NewObjectV clazz id args)).word ≠ 0 ∧ id ≠ 0
  | _, .ToReflectedMethod clazz id isStatic =>
    (vm.answer java (.ToReflectedMethod clazz id isStatic)).word ≠ 0
  | _, .FromReflectedMethod method => method ≠ 0
  | _, .GetFieldID _ _ _ => True
  | _, .GetStaticFieldID _ _ _ => True
  | _, .GetObjectField argObj id => (vm.answer java (.GetObjectField argObj id)).word ≠ 0
  | _, .GetStaticObjectField clazz id => (vm.answer java (.GetStaticObjectField clazz id)).word ≠ 0
  | _, _ => False

end Calls

end XposedJniTrace.Jni
