import XposedJniTrace.Jni.OwnTraced

/-!
# Transparency of the JNI tracer

A call of the app under the tracer beside the same call without it. A caller that is not listed goes
to the original at once. For a listed one the reports decide: a `toString` that answers null or
throws ends in a null string, or in a call with an exception pending; a static method is looked up
in the class of the class; an argument that is not a reference is taken for one.
-/

namespace XposedJniTrace.Jni

open Mylibc (CString c_str ascii)
open XposedJniTrace.Java (Prim)
open Variadic (Abi)

variable {abi : Abi} {W : Type} (vm : JavaVM abi W) (setting : Setting)

/-- For a caller that is not listed a wrapper is its original. -/
theorem wrapper_unlisted {act : Activation abi W} (h : act.listed = false) {k : Kind}
    (request : Request abi k) : wrapper vm act request = act.orig request := by
  have haround : ∀ {k : Kind} (request : Request abi k) before after,
      around act request before after = act.orig request := by
    intro k request before after
    rw [around, if_neg (by rw [h]; exact Bool.false_ne_true)]
  cases request with
  | CallPrimMethodV T obj id args => cases T <;> exact haround _ _ _
  | CallStaticPrimMethodV T obj id args => cases T <;> exact haround _ _ _
  | GetPrimField T argObj id => cases T <;> exact haround _ _ _
  | GetStaticPrimField T clazz id => cases T <;> exact haround _ _ _
  | GetStringUTFChars argstring isCopy =>
    rw [wrapper, new_GetStringUTFChars, h, Bool.false_and, if_neg Bool.false_ne_true]
    exact haround _ _ _
  | _ => exact haround _ _ _

/-- With its own library not listed the tracer's calls come to the functions themselves. -/
theorem fromTable_unlisted (h : setting.listed setting.own = false) (limit : ℕ) {k : Kind}
    (request : Request abi k) : fromTable vm setting (limit + 1) request = ownCall vm request :=
  wrapper_unlisted vm h request

section Call

variable {vm setting} {caller : CString} {k : Kind} {request : AppRequest abi k} {s : State abi W}

/-- Nothing is in the way of a call that describes nothing. -/
theorem reportable_of_not_describes {java : W} (h : ¬ Describes vm java request) :
    Reportable vm java request := by
  cases request with
  | CallObjectMethodV obj id args =>
    have hobj : obj = 0 := not_ne_iff.mp fun hobj => h (.inl hobj)
    exact ⟨⟨.inl hobj, .inl hobj⟩, .inl (not_ne_iff.mp fun hret => h (.inr hret))⟩
  | CallStaticObjectMethodV obj id args =>
    have hobj : obj = 0 := not_ne_iff.mp fun hobj => h (.inl hobj)
    exact ⟨⟨.inl hobj, .inl hobj⟩, .inl (not_ne_iff.mp fun hret => h (.inr hret))⟩
  | CallVoidMethodV obj id args => exact ⟨.inl (not_ne_iff.mp h), .inl (not_ne_iff.mp h)⟩
  | CallPrimMethodV T obj id args => exact ⟨.inl (not_ne_iff.mp h), .inl (not_ne_iff.mp h)⟩
  | CallStaticVoidMethodV obj id args => exact ⟨.inl (not_ne_iff.mp h), .inl (not_ne_iff.mp h)⟩
  | CallStaticPrimMethodV T obj id args => exact ⟨.inl (not_ne_iff.mp h), .inl (not_ne_iff.mp h)⟩
  | NewObjectV clazz jmethodId args =>
    rcases not_and_or.mp h with hret | hid
    · exact .inl (not_ne_iff.mp hret)
    · exact .inr (.inl (not_ne_iff.mp hid))
  | ToReflectedMethod clazz id isStatic => exact .inl (not_ne_iff.mp h)
  | FromReflectedMethod method => exact .inl (not_ne_iff.mp h)
  | GetFieldID clazz name sig => exact absurd trivial h
  | GetStaticFieldID clazz name sig => exact absurd trivial h
  | GetObjectField argObj id => exact .inl (not_ne_iff.mp h)
  | GetStaticObjectField clazz id => exact .inl (not_ne_iff.mp h)
  | _ => trivial

/-- A call that makes the tracer look at an object may always be made. -/
theorem nullString_of_describes {java : W} (h : Describes vm java request) :
    request.request.nullString = false := by
  cases request with
  | GetStringUTFChars argstring isCopy => exact absurd h id
  | _ => rfl

/-- What the app has behind a call that it may make. -/
theorem appCall_eq_some {request : Request abi k} {value : k.Value} {t : State abi W}
    (h : appCall vm request s = some (value, t)) :
    s.app.pending = false ∧ request.nullString = false ∧
      value = k.ofWord (vm.run request s.app.java).word ∧
      t.app = (vm.run request s.app.java).app k s.app.locals ∧ t.own = s.own := by
  rw [appCall] at h
  split_ifs at h with hforbidden
  obtain ⟨hpending, hnull⟩ := not_or.mp (Bool.or_eq_true _ _ ▸ hforbidden)
  injection h with h
  injection h with hvalue ht
  rw [← ht]
  exact ⟨Bool.not_eq_true _ ▸ hpending, Bool.not_eq_true _ ▸ hnull, hvalue.symm, rfl, rfl⟩

/-- At the start of a native method the app may make it. -/
theorem appCall_enter {java : W} (h : Describes vm java request) :
    ∃ value t, appCall vm request.request (enter java []) = some (value, t) := by
  refine ⟨_, _, if_neg ?_⟩
  rw [nullString_of_describes h]
  exact Bool.false_ne_true

/-- A call that does not match is made and recorded. -/
theorem call_unlisted (h : setting.listed caller = false) (limit : ℕ) :
    call vm setting limit caller request = recorded vm request.request :=
  wrapper_unlisted vm h request.request

/-- A call of a listed caller, where the tracer's own calls are not traced or there are none. -/
theorem call_traced (hlisted : setting.listed caller = true) (hready : s.app.pending = false)
    (hnull : request.request.nullString = false) {limit : ℕ}
    (hown : Describes vm s.app.java request → setting.listed setting.own = false ∧ limit ≠ 0) :
    Traced vm (call vm setting limit caller request) request.request s
      (Reportable vm s.app.java request) (Describes vm s.app.java request) := by
  refine wrapper_traced hlisted (fun _ => rfl) hready request hnull fun h k request => ?_
  obtain ⟨hself, hlimit⟩ := hown h
  obtain ⟨room, rfl⟩ := Nat.exists_eq_succ_of_ne_zero hlimit
  exact fromTable_unlisted vm setting hself room request

/-- No room is enough for a tracer that traces itself. -/
theorem call_none (hlisted : setting.listed caller = true) (hready : s.app.pending = false)
    (h : Describes vm s.app.java request) {limit : ℕ}
    (hself : setting.listed setting.own = true ∨ limit = 0) :
    call vm setting limit caller request s = none := by
  refine wrapper_none hlisted ?_ ?_ (fun _ => rfl) hready request h
  · intro obj id args
    rcases hself with hself | rfl
    · exact fromTable_object_endless hself limit obj id args
    · exact endless_forbidden
  · intro clazz id isStatic
    rcases hself with hself | rfl
    · exact fromTable_reflected_endless hself limit clazz id isStatic
    · exact endless_forbidden

/-- A call of a listed caller that describes an object does not return without leaving something,
and only where the tracer's own calls are not traced and the reports go through. -/
theorem call_describes (hlisted : setting.listed caller = true) (hready : s.app.pending = false)
    (h : Describes vm s.app.java request) {limit : ℕ} {value : k.Value} {s' : State abi W}
    (hcall : call vm setting limit caller request s = some (value, s')) :
    setting.listed setting.own = false ∧ Reportable vm s.app.java request ∧ s'.own.Leaves ∧
      s'.app = (vm.run request.request s.app.java).app k s.app.locals := by
  have hown : setting.listed setting.own = false ∧ limit ≠ 0 := by
    refine ⟨Bool.eq_false_iff.mpr fun hself => ?_, fun hzero => ?_⟩
    · rw [call_none hlisted hready h (.inl hself)] at hcall
      cases hcall
    · rw [call_none hlisted hready h (.inr hzero)] at hcall
      cases hcall
  have htraced : Traced vm (call vm setting limit caller request) request.request s
      (Reportable vm s.app.java request) (Describes vm s.app.java request) :=
    call_traced hlisted hready (nullString_of_describes h) fun _ => hown
  have hreportable : Reportable vm s.app.java request := by
    by_contra hnot
    rw [htraced.ends hnot] at hcall
    cases hcall
  obtain ⟨s₁, hrun, happ, -, hleaves, -⟩ := htraced.returns hreportable
  rw [hrun] at hcall
  cases hcall
  exact ⟨hown.1, hreportable, hleaves h, happ⟩

/-- Where nothing is in its way, a call returns what its original does, to the same state of the
app. -/
theorem call_returns (limit : ℕ) {value : k.Value} {t : State abi W}
    (happ : appCall vm request.request s = some (value, t))
    (h : setting.listed caller = false ∨ Reportable vm s.app.java request ∧
      (Describes vm s.app.java request → setting.listed setting.own = false ∧ limit ≠ 0)) :
    ∃ s', call vm setting limit caller request s = some (value, s') ∧ s'.app = t.app ∧
      s'.calls = s.calls ++ [⟨k, request.request⟩] ∧
      (setting.listed caller = false ∨ ¬ Describes vm s.app.java request → s'.own = s.own) := by
  obtain ⟨hready, hnull, hvalue, ht, -⟩ := appCall_eq_some happ
  cases hlisted : setting.listed caller with
  | false =>
    refine ⟨{ s with
      app := (vm.run request.request s.app.java).app k s.app.locals
      calls := s.calls ++ [⟨k, request.request⟩] }, ?_, ht.symm, rfl, fun _ => rfl⟩
    rw [call_unlisted hlisted, recorded_eq vm hready hnull, hvalue]
  | true =>
    obtain ⟨hreportable, hown⟩ := h.resolve_left (hlisted ▸ nofun)
    obtain ⟨s', hrun, happ', hcalls, -, hkept⟩ :=
      (call_traced hlisted hready hnull hown).returns hreportable
    refine ⟨s', ?_, happ'.trans ht.symm, hcalls, fun hquiet => hkept (hquiet.resolve_left nofun)⟩
    rw [hrun, hvalue]

end Call

/-- The tracer is transparent for a call that the app may make: with room enough the wrapper calls
its original once, as the app called it, and returns the same value to the same state of the app. -/
def Transparent (caller : CString) {k : Kind} (request : AppRequest abi k) (java : W) : Prop :=
  ∀ s value t, s.app.java = java → appCall vm request.request s = some (value, t) →
    ∃ limit s', call vm setting limit caller request s = some (value, s') ∧ s'.app = t.app ∧
      s'.calls = s.calls ++ [⟨k, request.request⟩]

variable {vm setting}

/-- A call is transparent when the caller does not match, or what it makes can be reported. -/
theorem transparent_of {caller : CString} {k : Kind} {request : AppRequest abi k} {java : W}
    (h : setting.listed caller = false ∨ Reportable vm java request ∧
      (setting.listed setting.own = false ∨ ¬ Describes vm java request)) :
    Transparent vm setting caller request java := by
  rintro s value t rfl happ
  obtain ⟨s', hcall, hsame, hcalls, -⟩ := call_returns 1 happ (h.imp_right fun h =>
    ⟨h.1, fun hdescribes => ⟨h.2.resolve_right (not_not_intro hdescribes), Nat.one_ne_zero⟩⟩)
  exact ⟨1, s', hcall, hsame, hcalls⟩

/-- A call that matches is not transparent when what it makes cannot be reported. -/
theorem not_transparent {caller : CString} {k : Kind} {request : AppRequest abi k} {java : W}
    (hlisted : setting.listed caller = true) (hdescribes : Describes vm java request)
    (h : ¬ (setting.listed setting.own = false ∧ Reportable vm java request)) :
    ¬ Transparent vm setting caller request java := by
  intro htransparent
  obtain ⟨value, t, happ⟩ := appCall_enter hdescribes
  obtain ⟨limit, s', hcall, -⟩ := htransparent (enter java []) value t rfl happ
  obtain ⟨hself, hreportable, -⟩ := call_describes hlisted rfl hdescribes hcall
  exact h ⟨hself, hreportable⟩

/-- The tracer is transparent for a call exactly when the caller is not listed, or nothing is
described, or the tracer's own calls are not traced and the reports go through. -/
theorem transparent_iff_reportable (vm : JavaVM abi W) (setting : Setting)
    (caller : CString) {k : Kind}
    (request : AppRequest abi k) (java : W) :
    Transparent vm setting caller request java ↔
      setting.listed caller = false ∨ ¬ Describes vm java request ∨
        setting.listed setting.own = false ∧ Reportable vm java request := by
  refine ⟨fun h => ?_, fun h => transparent_of ?_⟩
  · by_contra hnot
    obtain ⟨hcaller, hnot⟩ := not_or.mp hnot
    obtain ⟨hdescribes, hreports⟩ := not_or.mp hnot
    exact not_transparent (Bool.not_eq_false _ ▸ hcaller) (not_not.mp hdescribes) hreports h
  · rcases h with hcaller | hquiet | ⟨hself, hreportable⟩
    · exact .inl hcaller
    · exact .inr ⟨reportable_of_not_describes hquiet, .inr hquiet⟩
    · exact .inr ⟨hreportable, .inl hself⟩

section OneObject

/-- A Java with one object, the app's word 1. -/
def oneObject (obj : Obj) : JavaVM Variadic.arm64 Unit where
  object _ w := if w = 1 then some obj else none
  chars _ _ := c_str []
  method _ := ⟨false, false, [], Nat.zero_le _⟩
  derives _ _ := true
  primText _ _ := c_str []
  platformText _ := c_str []
  run _ java := ⟨0, false, java⟩

/-- The path of a library of the application. -/
def libapp : CString := c_str (ascii "/data/app/lib/arm64/libapp.so")

/-- One library is traced. -/
def libappSetting : Setting :=
  ⟨⟨false, [ascii "libapp.so"], [ascii "libfunJni.so"]⟩, ownPath, fun _ => []⟩

/-- The library is listed. -/
theorem libapp_listed : libappSetting.listed libapp = true := by decide +kernel

/-- A method without parameters is called on the object. -/
def oneMethodCall : AppRequest Variadic.arm64 .void :=
  .CallVoidMethodV 1 1 (Variadic.arm64.place (Variadic.Arm64.behind 3 0) [])

/-- A receiver whose `toString` answers null: the null string is asked for its characters, and the
original is not called. -/
theorem toString_null :
    ¬ Transparent (oneObject ⟨c_str (ascii "Model"), .null, .other⟩) libappSetting libapp
      oneMethodCall () := by
  refine not_transparent libapp_listed Nat.one_ne_zero ?_
  rintro ⟨-, ⟨hshown, -⟩⟩
  obtain ⟨thing, hthing, hdescribable⟩ := hshown.resolve_left Nat.one_ne_zero
  obtain rfl : Thing.object ⟨c_str (ascii "Model"), .null, .other⟩ = thing := Option.some.inj hthing
  obtain ⟨text, htext⟩ :=
    (describable_plain (by decide +kernel) (by decide +kernel)).mp hdescribable
  cases htext

end OneObject

end XposedJniTrace.Jni
