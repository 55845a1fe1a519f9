import XposedJniTrace.Jni.Transparent

/-!
# The buffers of the JNI tracer

What becomes of the characters that the tracer gets from `GetStringUTFChars`. The name of a class is
read behind the release of its buffer, and the text of an object is never released, so that a call
keeps the discipline only when the tracer looks at no object.
-/

namespace XposedJniTrace.Jni

open Mylibc (CString c_str ascii)
open Variadic (Abi)

variable {abi : Abi} {W : Type}

/-- The wrapper of a call that the app may make returns, with room enough, and the buffers of the
tracer are then used before their release only and all released, each once. -/
def Disciplined (vm : JavaVM abi W) (setting : Setting) (caller : CString) {k : Kind}
    (request : AppRequest abi k) (java : W) : Prop :=
  ∀ s value t, s.app.java = java → appCall vm request.request s = some (value, t) →
    ∃ limit value' s', call vm setting limit caller request s = some (value', s') ∧
      (s.own.misused = false → s'.own.misused = false) ∧
      ∃ buffers, s'.own.buffers = s.own.buffers ++ buffers ∧ true ∉ buffers

variable {vm : JavaVM abi W} {setting : Setting} {caller : CString} {k : Kind}
  {request : AppRequest abi k} {java : W}

/-- No buffers, no misuse. -/
theorem disciplined_of (h : setting.listed caller = false ∨ ¬ Describes vm java request) :
    Disciplined vm setting caller request java := by
  rintro s value t rfl happ
  obtain ⟨s', hcall, -, -, hkept⟩ := call_returns 0 happ (h.imp_right fun hquiet =>
    ⟨reportable_of_not_describes hquiet, fun hdescribes => absurd hdescribes hquiet⟩)
  refine ⟨0, value, s', hcall, ?_, [], ?_, List.not_mem_nil⟩
  · rw [hkept h]
    exact id
  · rw [hkept h, List.append_nil]

/-- A report of a call that matches leaves a buffer unreleased. -/
theorem not_disciplined (hlisted : setting.listed caller = true)
    (hdescribes : Describes vm java request) :
    ¬ Disciplined vm setting caller request java := by
  intro hdisciplined
  obtain ⟨value, t, happ⟩ := appCall_enter hdescribes
  obtain ⟨limit, value', s', hcall, hmisused, buffers, hbuffers, hreleased⟩ :=
    hdisciplined (enter java []) value t rfl happ
  obtain ⟨-, -, hleaves, -⟩ := call_describes hlisted rfl hdescribes hcall
  rcases hleaves.buffers with hmisuse | hheld
  · rw [hmisused rfl] at hmisuse
    cases hmisuse
  · rw [hbuffers] at hheld
    exact hreleased hheld

/-- The buffers keep their discipline in a call exactly when the caller is not listed or the tracer
looks at no object. -/
theorem disciplined_iff (vm : JavaVM abi W) (setting : Setting) (caller : CString) {k : Kind}
    (request : AppRequest abi k) (java : W) :
    Disciplined vm setting caller request java ↔
      setting.listed caller = false ∨ ¬ Describes vm java request := by
  refine ⟨fun h => ?_, disciplined_of⟩
  by_contra hnot
  obtain ⟨hcaller, hdescribes⟩ := not_or.mp hnot
  exact not_disciplined (Bool.not_eq_false _ ▸ hcaller) (not_not.mp hdescribes) h

/-- A receiver like any other: the name of its class is read behind the release, and its text is
kept. -/
theorem text_kept :
    ¬ Disciplined (oneObject ⟨c_str (ascii "Model"), .text (c_str (ascii "model")), .other⟩)
      libappSetting libapp oneMethodCall () :=
  not_disciplined libapp_listed Nat.one_ne_zero

end XposedJniTrace.Jni
