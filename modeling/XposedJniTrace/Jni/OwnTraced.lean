import XposedJniTrace.Jni.Traced

/-!
# A tracer that traces itself

Where the library of the tracer is listed, a call that the tracer makes is reported as well. The
report of an object calls `getName` on its class, an object again, so that no room is enough for a
call of the app that makes the tracer look at an object.
-/

namespace XposedJniTrace.Jni

open Mylibc (CString c_str ascii)
open XposedJniTrace.Java (Prim Text)
open Variadic (Abi)

variable {abi : Abi} {W : Type} {vm : JavaVM abi W}

/-- It never returns. -/
def Endless {α : Type} (x : Hook abi W α) : Prop := ∀ s, x s = none

section Bind

variable {α β : Type}

/-- What must not be done has no end. -/
theorem endless_forbidden : Endless (forbidden : Hook abi W α) := fun _ => rfl

/-- What has no end has none with something behind it. -/
theorem Endless.bind {x : Hook abi W α} (h : Endless x) (f : α → Hook abi W β) :
    Endless (x >>= f) :=
  fun s => run_bind_none (h s)

/-- What is followed by something without end has none. -/
theorem endless_bind (x : Hook abi W α) {f : α → Hook abi W β} (h : ∀ a, Endless (f a)) :
    Endless (x >>= f) := by
  intro s
  cases hrun : x s with
  | none => exact run_bind_none hrun
  | some result => exact (run_bind hrun).trans (h _ _)

/-- A new reference is not null. -/
theorem endless_newLocal (thing : Thing) {f : Ref → Hook abi W β}
    (h : ∀ ref, ref ≠ .null → Endless (f ref)) : Endless (newLocal thing >>= f) := by
  intro s
  have hnew : newLocal thing s = some (.own s.own.made thing, s.push thing) := rfl
  rw [run_bind hnew]
  exact h (.own s.own.made thing) nofun _

/-- Without an end for every class that is not null there is none behind `GetObjectClass` -/
theorem endless_GetObjectClass (obj : Ref) {f : Ref → Hook abi W β}
    (h : ∀ ref, ref ≠ .null → Endless (f ref)) : Endless (GetObjectClass vm obj >>= f) := by
  rw [GetObjectClass, bind_assoc]
  exact endless_bind _ fun thing => endless_newLocal _ h

/-- Without an end for every method that is not null there is none behind `ToReflectedMethod` -/
theorem endless_ToReflectedMethod (clazz : Ref) (id : MethodID) (isStatic : Bool)
    {f : Ref → Hook abi W β} (h : ∀ ref, ref ≠ .null → Endless (f ref)) :
    Endless (ownCall vm (.ToReflectedMethod clazz id isStatic) >>= f) := by
  rw [own_ToReflectedMethod, bind_assoc]
  refine endless_bind _ fun thing => ?_
  cases thing with
  | jclass name =>
    dsimp only
    split_ifs
    · exact endless_newLocal _ h
    · exact endless_forbidden.bind f
  | object _ => exact endless_forbidden.bind f
  | jstring _ => exact endless_forbidden.bind f
  | reflected _ => exact endless_forbidden.bind f
  | classArray _ => exact endless_forbidden.bind f

end Bind

section Reports

variable {act : Activation abi W}
  (hobject : ∀ obj id args, Endless (act.own (.CallObjectMethodV obj id args)))

include hobject

/-- A report of an object has no end where the wrappers trace themselves. -/
theorem getJObjectInfoInternal_endless {obj : Ref} (hobj : obj ≠ .null) (message : Text)
    (isPrintClassinfo : Bool) :
    Endless (getJObjectInfoInternal vm act obj message isPrintClassinfo .null) := by
  rw [getJObjectInfoInternal, if_neg hobj, if_pos rfl]
  refine endless_GetObjectClass obj fun clazz hclazz => ?_
  refine Endless.bind ?_ _
  rw [getJObjectClassInfo, if_neg hclazz]
  refine endless_bind _ fun _ => endless_bind _ fun method => ?_
  exact (hobject clazz method (.refs [])).bind _

/-- A report of a call has no end where the wrappers trace themselves. -/
theorem reportCall_endless {obj : Ref} (hobj : obj ≠ .null) (methodname : String) (id : MethodID)
    (args : Args abi) (isStatic : Bool) :
      Endless (reportCall vm act methodname obj id args isStatic) := by
  refine Endless.bind ?_ _
  rw [getJObjectInfo, if_neg hobj]
  exact endless_bind _ fun _ => getJObjectInfoInternal_endless hobject hobj _ true

/-- A report of a result has no end where the wrappers trace themselves. -/
theorem reportResult_endless {ret : Ref} (hret : ret ≠ .null) (message : String)
    (isPrintClassinfo : Bool) :
    Endless (reportResult vm act message isPrintClassinfo ret) := by
  rw [reportResult, if_pos hret]
  exact getJObjectInfoInternal_endless hobject hret _ isPrintClassinfo

/-- A report of a field has no end where the wrappers trace themselves. -/
theorem reportField_endless (clazz : Ref) (line : CString → Hook abi W Unit) :
    Endless (reportField vm act clazz line) := by
  refine Endless.bind ?_ _
  rw [getJObjectToString]
  refine endless_bind _ fun _ => endless_bind _ fun method => ?_
  exact (hobject clazz method (.refs [])).bind _

end Reports

/-- The arguments have no end when reflecting the method has none. -/
theorem getArgsInfo_endless {act : Activation abi W} (hreflected : ∀ clazz id isStatic,
    Endless (act.own (.ToReflectedMethod clazz id isStatic))) {obj : Ref} (hobj : obj ≠ .null)
    {id : MethodID} (hid : id ≠ .app 0) (args : Args abi) (isStatic : Bool) :
    Endless (getArgsInfo vm act obj id args isStatic) := by
  rw [getArgsInfo, if_neg hobj, if_neg hid]
  exact endless_bind _ fun clazz => (hreflected clazz id isStatic).bind _

section Wrappers

variable {act : Activation abi W} (hlisted : act.listed = true)

include hlisted

/-- A wrapper whose report in front has no end has none. -/
theorem around_endless_before {k : Kind} (request : Request abi k) {before : Hook abi W Unit}
    (hbefore : Endless before) (after : k.Value → Hook abi W Unit) :
    Endless (around act request before after) := by
  rw [around, if_pos hlisted]
  exact hbefore.bind _

/-- A wrapper whose original has no end has none. -/
theorem around_endless_orig {k : Kind} {request : Request abi k}
    (horig : Endless (act.orig request))
    (before : Hook abi W Unit) (after : k.Value → Hook abi W Unit) :
    Endless (around act request before after) := by
  rw [around, if_pos hlisted]
  exact endless_bind _ fun _ => horig.bind _

/-- Behind an original nothing was in front of. -/
theorem around_none_after
    (horig : ∀ {k : Kind} (request : Request abi k), act.orig request = recorded vm request)
    {s : State abi W} (hready : s.app.pending = false) {k : Kind} {request : Request abi k}
    (hnull : request.nullString = false) {before : Hook abi W Unit}
    (hbefore : before s = some ((), s))
    {after : k.Value → Hook abi W Unit}
    (hafter : Endless (after (k.ofWord (vm.run request s.app.java).word))) :
    around act request before after s = none := by
  have hcall := recorded_eq vm hready hnull
  rw [← horig] at hcall
  rw [around, if_pos hlisted, run_bind hbefore, run_bind hcall]
  exact hafter.bind _ _

end Wrappers

/-- Nothing is reported of null. -/
theorem reportCall_null (act : Activation abi W) (methodname : String) (id : MethodID)
    (args : Args abi)
    (isStatic : Bool) (s : State abi W) :
    reportCall vm act methodname .null id args isStatic s = some ((), s) := rfl

/-- No method is called on null. -/
theorem ownCall_null_endless (id : MethodID) (args : Args abi) :
    Endless (ownCall vm (.CallObjectMethodV .null id args)) := by
  cases id with
  | app id => exact endless_forbidden
  | own id =>
    rw [own_CallObjectMethodV]
    refine Endless.bind ?_ _
    exact endless_bind _ fun _ s => rfl

section Table

variable {setting : Setting} (hself : setting.listed setting.own = true)

include hself

/-- Each call of a method that returns an object ends in another, within less room. -/
theorem fromTable_object_endless (limit : ℕ) (obj : Ref) (id : MethodID) (args : Args abi) :
    Endless (fromTable vm setting limit (.CallObjectMethodV obj id args)) := by
  induction limit generalizing obj id args with
  | zero => exact endless_forbidden
  | succ limit ih =>
    rw [fromTable, wrapper, new_CallObjectMethodV]
    by_cases hobj : obj = .null
    · rw [hobj]
      exact around_endless_orig hself (ownCall_null_endless id args) _ _
    · exact around_endless_before hself _ (reportCall_endless ih hobj _ id args false) _

/-- What `ToReflectedMethod` returns to the tracer is described. -/
theorem fromTable_reflected_endless (limit : ℕ) (clazz : Ref) (id : MethodID) (isStatic : Bool) :
    Endless (fromTable vm setting limit (.ToReflectedMethod clazz id isStatic)) := by
  cases limit with
  | zero => exact endless_forbidden
  | succ limit =>
    rw [fromTable, wrapper, new_ToReflectedMethod, around, if_pos hself]
    refine endless_bind _ fun _ => endless_ToReflectedMethod clazz id isStatic fun ref href => ?_
    exact (reportResult_endless (fromTable_object_endless hself limit) href _ false).bind _

end Table

/-- A call of the app that makes the tracer look at an object does not return, whatever room there
is. -/
theorem wrapper_none {act : Activation abi W} (hlisted : act.listed = true)
    (hobject : ∀ obj id args, Endless (act.own (.CallObjectMethodV obj id args)))
    (hreflected : ∀ clazz id isStatic, Endless (act.own (.ToReflectedMethod clazz id isStatic)))
    (horig : ∀ {k : Kind} (request : Request abi k), act.orig request = recorded vm request)
    {s : State abi W} (hready : s.app.pending = false) {k : Kind} (request : AppRequest abi k)
    (h : Describes vm s.app.java request) : wrapper vm act request.request s = none := by
  cases request with
  | CallObjectMethodV obj id args =>
    by_cases hobj : obj = 0
    · subst hobj
      have hret := h.resolve_left (not_not_intro rfl)
      exact around_none_after hlisted horig hready rfl (reportCall_null act _ _ _ false s)
        (getJObjectInfoInternal_endless hobject (fun hnull => hret (Ref.word.inj hnull)) _ true)
    · exact around_endless_before hlisted _
        (reportCall_endless hobject (fun hnull => hobj (Ref.word.inj hnull)) _ _ _ false) _ s
  | CallVoidMethodV obj id args =>
    exact around_endless_before hlisted _
      (reportCall_endless hobject (fun hnull => h (Ref.word.inj hnull)) _ _ _ false) _ s
  | CallPrimMethodV T obj id args =>
    have hcall : ∀ methodname,
        Endless (reportCall vm act methodname (.word obj) (.app id) (.va args) false) :=
      fun methodname =>
        reportCall_endless hobject (fun hnull => h (Ref.word.inj hnull)) methodname _ _ false
    cases T <;> exact around_endless_before hlisted _ (hcall _) _ s
  | CallStaticObjectMethodV obj id args =>
    by_cases hobj : obj = 0
    · subst hobj
      have hret := h.resolve_left (not_not_intro rfl)
      exact around_none_after hlisted horig hready rfl (reportCall_null act _ _ _ true s)
        (getJObjectInfoInternal_endless hobject (fun hnull => hret (Ref.word.inj hnull)) _ true)
    · exact around_endless_before hlisted _
        (reportCall_endless hobject (fun hnull => hobj (Ref.word.inj hnull)) _ _ _ true) _ s
  | CallStaticVoidMethodV obj id args =>
    exact around_endless_before hlisted _
      (reportCall_endless hobject (fun hnull => h (Ref.word.inj hnull)) _ _ _ true) _ s
  | CallStaticPrimMethodV T obj id args =>
    have hcall : ∀ methodname,
        Endless (reportCall vm act methodname (.word obj) (.app id) (.va args) true) :=
      fun methodname =>
        reportCall_endless hobject (fun hnull => h (Ref.word.inj hnull)) methodname _ _ true
    cases T <;> exact around_endless_before hlisted _ (hcall _) _ s
  | NewStringUTF bytes => exact absurd h id
  | GetStringUTFChars argstring isCopy => exact absurd h id
  | FindClass name => exact absurd h id
  | NewObjectV clazz jmethodId args =>
    refine around_none_after hlisted horig hready rfl rfl (endless_bind _ fun _ => ?_)
    exact getArgsInfo_endless hreflected (fun hnull => h.1 (Ref.word.inj hnull))
      (fun hid => h.2 (MethodID.app.inj hid)) _ false
  | ToReflectedMethod clazz id isStatic =>
    exact around_none_after hlisted horig hready rfl rfl
      (reportResult_endless hobject (fun hnull => h (Ref.word.inj hnull)) _ false)
  | FromReflectedMethod method =>
    exact around_endless_before hlisted _
      (getJObjectInfoInternal_endless hobject (fun hnull => h (Ref.word.inj hnull)) _ false) _ s
  | GetFieldID clazz name sig =>
    exact around_endless_before hlisted _ (reportField_endless hobject _ _) _ s
  | GetStaticFieldID clazz name sig =>
    exact around_endless_before hlisted _ (reportField_endless hobject _ _) _ s
  | GetObjectField argObj id =>
    exact around_none_after hlisted horig hready rfl rfl
      (reportResult_endless hobject (fun hnull => h (Ref.word.inj hnull)) _ true)
  | GetPrimField T argObj jfieldId => exact absurd h id
  | GetStaticObjectField clazz id =>
    exact around_none_after hlisted horig hready rfl rfl
      (reportResult_endless hobject (fun hnull => h (Ref.word.inj hnull)) _ true)
  | GetStaticPrimField T clazz jfieldId => exact absurd h id

end XposedJniTrace.Jni
