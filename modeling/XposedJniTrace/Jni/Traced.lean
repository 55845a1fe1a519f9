import XposedJniTrace.Jni.Calls

/-!
# How a traced call ends

Every wrapper reports, calls its original once with the arguments as it was given them, reports the
result and returns it. With the tracer's own library not listed, a call of a listed caller returns
exactly when its reports go through, and it leaves something behind exactly when it describes an
object.
-/

namespace XposedJniTrace.Jni

open Mylibc (CString c_str ascii)
open XposedJniTrace.Java (Prim Text)
open Variadic (Abi)

variable {abi : Abi} {W : Type} {vm : JavaVM abi W}

/-- How the wrapper of a request ends at a state. -/
structure Traced (vm : JavaVM abi W) {k : Kind} (hook : Hook abi W k.Value)
    (request : Request abi k)
    (s : State abi W) (through leaves : Prop) : Prop where
  returns : through → ∃ s', hook s = some (k.ofWord (vm.run request s.app.java).word, s') ∧
    s'.app = (vm.run request s.app.java).app k s.app.locals ∧ s'.calls = s.calls ++ [⟨k, request⟩] ∧
    (leaves → s'.own.Leaves) ∧ (¬ leaves → s'.own = s.own)
  ends : ¬ through → hook s = none

/-- The conditions of a trace can be replaced by equivalent ones. -/
theorem Traced.congr {k : Kind} {hook : Hook abi W k.Value} {request : Request abi k}
    {s : State abi W}
    {P Q D E : Prop} (h : Traced vm hook request s P D) (hP : P ↔ Q) (hD : D ↔ E) :
    Traced vm hook request s Q E := by
  rw [← hP, ← hD]
  exact h

/-- What an original leaves is the app's, and the call is written down. -/
theorem recorded_eq (vm : JavaVM abi W) {k : Kind} {request : Request abi k} {s : State abi W}
    (hready : s.app.pending = false) (hnull : request.nullString = false) :
    recorded vm request s = some (k.ofWord (vm.run request s.app.java).word,
      { s with
        app := (vm.run request s.app.java).app k s.app.locals
        calls := s.calls ++ [⟨k, request⟩] }) := by
  rw [recorded, appCall]
  dsimp only
  rw [hready, hnull]
  rfl

/-- No exception is pending behind a call that returned a word. -/
theorem pending_of_word_ne_zero {out : Outcome W} (h : out.word ≠ 0) (k : Kind) (locals : List ℕ) :
    (out.app k locals).pending = false := by
  rw [Outcome.word] at h
  split_ifs at h with hthrown
  · exact absurd rfl h
  · exact Bool.not_eq_true _ ▸ hthrown

section Around

variable {act : Activation abi W} (hlisted : act.listed = true)
  (horig : ∀ {k : Kind} (request : Request abi k), act.orig request = recorded vm request)

include hlisted horig

/-- A report, the original, and a report of its result. -/
theorem around_traced {k : Kind} {request : Request abi k} (hnull : request.nullString = false)
    {s : State abi W} (hready : s.app.pending = false) {before : Hook abi W Unit}
    {after : k.Value → Hook abi W Unit} {P Q D E : Prop} (hbefore : Report before s P D)
    (hafter : ∀ s₁ : State abi W, s₁.app = (vm.run request s.app.java).app k s.app.locals →
      Report (after (k.ofWord (vm.run request s.app.java).word)) s₁ Q E) :
    Traced vm (around act request before after) request s (P ∧ Q) (D ∨ E) := by
  rw [around, if_pos hlisted]
  by_cases hP : P
  · obtain ⟨s₁, hrun₁, h₁, hleaves₁, hown₁⟩ := hbefore.returns hP
    have hcall := recorded_eq vm (h₁.ready hready) hnull
    rw [h₁.app, h₁.calls, ← horig] at hcall
    let s₂ : State abi W := { s₁ with
      app := (vm.run request s.app.java).app k s.app.locals
      calls := s.calls ++ [⟨k, request⟩] }
    have hreport := hafter s₂ rfl
    refine ⟨?_, ?_⟩
    · rintro ⟨-, hQ⟩
      obtain ⟨s₃, hrun₃, h₃, hleaves₃, hown₃⟩ := hreport.returns hQ
      refine ⟨s₃, ?_, h₃.app, h₃.calls, ?_, ?_⟩
      · rw [run_bind hrun₁, run_bind hcall, run_bind hrun₃]
        rfl
      · rintro (hD | hE)
        · exact h₃.leaves (s := s₂) (hleaves₁ hD)
        · exact hleaves₃ hE
      · intro hneither
        rw [hown₃ fun hE => hneither (.inr hE)]
        exact hown₁ fun hD => hneither (.inl hD)
    · intro hnot
      rw [run_bind hrun₁, run_bind hcall]
      exact run_bind_none (hreport.ends fun hQ => hnot ⟨hP, hQ⟩)
  · exact ⟨fun h => absurd h.1 hP, fun _ => run_bind_none (hbefore.ends hP)⟩

/-- A wrapper that describes nothing behind its original. -/
theorem around_before {k : Kind} {request : Request abi k} (hnull : request.nullString = false)
    {s : State abi W} (hready : s.app.pending = false) {before : Hook abi W Unit}
    {after : k.Value → Hook abi W Unit} {P D : Prop} (hbefore : Report before s P D)
    (hafter : ∀ s₁ : State abi W,
      Report (after (k.ofWord (vm.run request s.app.java).word)) s₁ True False) :
    Traced vm (around act request before after) request s P D :=
  (around_traced hlisted horig hnull hready hbefore fun s₁ _ => hafter s₁).congr
    (and_iff_left trivial) (or_iff_left not_false)

/-- A wrapper that describes nothing in front of its original. -/
theorem around_after {k : Kind} {request : Request abi k} (hnull : request.nullString = false)
    {s : State abi W} (hready : s.app.pending = false)
    {after : k.Value → Hook abi W Unit} {Q E : Prop}
    (hafter : ∀ s₁ : State abi W, s₁.app = (vm.run request s.app.java).app k s.app.locals →
      Report (after (k.ofWord (vm.run request s.app.java).word)) s₁ Q E) :
    Traced vm (around act request (pure ()) after) request s Q E :=
  (around_traced hlisted horig hnull hready (Report.nothing s) hafter).congr
    (and_iff_right trivial) (or_iff_right not_false)

end Around

section Members

variable {act : Activation abi W} {s : State abi W}

/-- The report of a call says what the object and the arguments are. -/
theorem reportCall_report (hready : s.app.pending = false) {obj : ℕ}
    (hown : obj ≠ 0 → ∀ {k : Kind} (request : Request abi k), act.own request = ownCall vm request)
    (methodname : String) (id : ℕ) (args : abi.VaList) (isStatic : Bool) :
    Report (reportCall vm act methodname (.word obj) (.app id) (.va args) isStatic) s
      (CallShown vm s.app.java obj id isStatic args) (obj ≠ 0) := by
  have hinfo : Report (getJObjectInfo vm act (.word obj) methodname) s
      (obj = 0 ∨ Shown vm s.app.java obj) (obj ≠ 0) := by
    rw [getJObjectInfo]
    by_cases hobj : obj = 0
    · subst hobj
      rw [if_pos rfl]
      exact (Report.nothing s).congr (by simp) (by simp)
    · rw [if_neg fun hnull => hobj (Ref.word.inj hnull)]
      have hinternal : ∀ s₁, Extends s s₁ → Report (getJObjectInfoInternal vm act (.word obj)
          (ascii "invoke this object") true .null) s₁
            (obj = 0 ∨ Shown vm s.app.java obj) (obj ≠ 0) := by
        intro s₁ h₁
        rw [← h₁.app]
        exact getJObjectInfoInternal_report (h₁.ready hready) hown _ true
      exact ((Report.line _ s).seq hinternal).congr (by simp) (by simp)
  have hargs : ∀ s₁, Extends s s₁ →
      Report (getArgsInfo vm act (.word obj) (.app id) (.va args) isStatic) s₁
      (obj = 0 ∨ id = 0 ∨ Reflected vm s.app.java obj (.app id) isStatic args)
      (obj ≠ 0 ∧ MethodID.app id ≠ .app 0) := by
    intro s₁ h₁
    rw [← h₁.app]
    exact (getArgsInfo_report (h₁.ready hready) (fun h => hown h.1) args isStatic).congr
      (by simp) Iff.rfl
  refine (hinfo.seq hargs).congr Iff.rfl ?_
  exact or_iff_left_of_imp And.left

/-- The report of a reference that the original returned. -/
theorem result_report {out : Outcome W} {locals : List ℕ} (hs : s.app = out.app .ref locals)
    (hown : out.word ≠ 0 →
      ∀ {k : Kind} (request : Request abi k), act.own request = ownCall vm request)
    (message : Text) (isPrintClassinfo : Bool) :
    Report (getJObjectInfoInternal vm act (.word out.word) message isPrintClassinfo .null) s
      (ResultShown vm out) (out.word ≠ 0) := by
  by_cases hzero : out.word = 0
  · rw [ResultShown, hzero, getJObjectInfoInternal, if_pos rfl]
    exact (Report.nothing s).congr (by simp) (by simp)
  · have hready : s.app.pending = false := by
      rw [hs]
      exact pending_of_word_ne_zero hzero .ref locals
    have hreport := getJObjectInfoInternal_report hready hown message isPrintClassinfo
    rw [hs] at hreport
    exact hreport

/-- The report of a result says what it is. -/
theorem reportResult_report {out : Outcome W} {locals : List ℕ} (hs : s.app = out.app .ref locals)
    (hown : out.word ≠ 0 →
      ∀ {k : Kind} (request : Request abi k), act.own request = ownCall vm request)
    (message : String) (isPrintClassinfo : Bool) :
    Report (reportResult vm act message isPrintClassinfo (.word out.word)) s (ResultShown vm out)
      (out.word ≠ 0) := by
  have hreport := result_report hs hown (ascii message) isPrintClassinfo
  rw [reportResult]
  by_cases hnull : Ref.word out.word = .null
  · rw [if_neg (not_not_intro hnull)]
    rw [getJObjectInfoInternal, if_pos hnull] at hreport
    exact hreport
  · rw [if_pos hnull]
    exact hreport

/-- The report of an object that was made. -/
theorem newObject_report {out : Outcome W} {locals : List ℕ}
    (hs : s.app = out.app .ref locals) {id : ℕ}
    (hown : out.word ≠ 0 ∧ id ≠ 0 →
      ∀ {k : Kind} (request : Request abi k), act.own request = ownCall vm request)
    (args : abi.VaList) :
    Report (getArgsInfo vm act (.word out.word) (.app id) (.va args) false) s
      (out.word = 0 ∨ id = 0 ∨ Reflected vm out.java out.word (.app id) false args)
      (out.word ≠ 0 ∧ id ≠ 0) := by
  by_cases hzero : out.word = 0
  · rw [hzero, getArgsInfo, if_pos rfl]
    exact (Report.nothing s).congr (by simp) (by simp)
  · have hready : s.app.pending = false := by
      rw [hs]
      exact pending_of_word_ne_zero hzero .ref locals
    have hreport : Report (getArgsInfo vm act (.word out.word) (.app id) (.va args) false) s
        (out.word = 0 ∨ MethodID.app id = .app 0 ∨
          Reflected vm s.app.java out.word (.app id) false args)
        (out.word ≠ 0 ∧ MethodID.app id ≠ .app 0) :=
      getArgsInfo_report hready (fun h => hown ⟨h.1, fun hid => h.2 (congrArg _ hid)⟩) args false
    rw [hs] at hreport
    exact hreport.congr (by simp [Outcome.app]) (by simp)

/-- The line for a static field is forbidden without a name and a signature. -/
theorem staticField_report (text : CString) (name sig : Option CString) (s : State abi W) :
    Report (match name, sig with
      | some name, some sig =>
        write (ascii "get static field info  : " ++ text.bytes ++ ascii " " ++ name.bytes ++
          ascii " " ++ sig.bytes ++ ascii "\n")
      | _, _ => forbidden) s (name.isSome ∧ sig.isSome) False := by
  cases name with
  | none => exact ⟨fun h => absurd h.1 Bool.false_ne_true, fun _ => rfl⟩
  | some name =>
    cases sig with
    | none => exact ⟨fun h => absurd h.2 Bool.false_ne_true, fun _ => rfl⟩
    | some sig => exact (Report.line _ s).congr (by simp) Iff.rfl

/-- The report of a field that is looked up keeps its buffer. -/
theorem reportField_report (hready : s.app.pending = false)
    (hown : ∀ {k : Kind} (request : Request abi k), act.own request = ownCall vm request)
    (clazz : ℕ)
    {line : CString → Hook abi W Unit} {Q : Prop}
    (hline : ∀ text s₁, Report (line text) s₁ Q False) :
    Report (reportField vm act (.word clazz) line) s (Texted vm s.app.java clazz ∧ Q) True := by
  rw [reportField]
  by_cases htexted : Texted vm s.app.java clazz
  · obtain ⟨thing, hthing, text, htext⟩ := htexted
    have hobj : s.thing vm (.word clazz) = some thing := hthing
    obtain ⟨s₁, hrun, h₁, hlocals, hbuffers⟩ := getJObjectToString_returns hown hready hobj htext
    have hread : read vm (.own s.own.buffers.length text) s₁ =
        some (text, s₁.look s.own.buffers.length) := rfl
    have h₂ := h₁.trans (extends_look s₁ s.own.buffers.length)
    have hleaves : (s₁.look s.own.buffers.length).own.Leaves := by
      refine ⟨hlocals, .inr ?_⟩
      change true ∈ s₁.own.buffers
      rw [hbuffers]
      exact List.mem_append_right _ (List.mem_singleton_self true)
    have hrest : (getJObjectToString vm act (.word clazz) >>= fun toString =>
        if toString = .null then line (c_str []) else read vm toString >>= line) s =
        line text (s₁.look s.own.buffers.length) := by
      rw [run_bind hrun, if_neg (own_ne_null _ _), run_bind hread]
    have hreport := hline text (s₁.look s.own.buffers.length)
    refine ⟨?_, ?_⟩
    · rintro ⟨-, hQ⟩
      obtain ⟨s₃, hrun₃, h₃, -⟩ := hreport.returns hQ
      exact ⟨s₃, hrest.trans hrun₃, h₂.trans h₃, fun _ => h₃.leaves hleaves,
        fun hnot => absurd trivial hnot⟩
    · intro hnot
      exact hrest.trans (hreport.ends fun hQ => hnot ⟨⟨thing, hthing, text, htext⟩, hQ⟩)
  · refine ⟨fun h => absurd h.1 htexted, fun _ => run_bind_none ?_⟩
    exact getJObjectToString_none hown hready htexted

end Members

section Wrappers

variable {act : Activation abi W} {s : State abi W} (hlisted : act.listed = true)
  (horig : ∀ {k : Kind} (request : Request abi k), act.orig request = recorded vm request)
  (hready : s.app.pending = false)

include hlisted horig hready

/-- A call of a method with a primitive result is traced. -/
theorem callPrimMethodV_traced {obj : ℕ}
    (hown : obj ≠ 0 → ∀ {k : Kind} (request : Request abi k), act.own request = ownCall vm request)
    (methodname label : String) (T : Prim) (id : ℕ) (args : abi.VaList) :
    Traced vm (k := .prim T)
      (callPrimMethodV vm act methodname label T (.word obj) (.app id) (.va args))
      (.CallPrimMethodV T (.word obj) (.app id) (.va args)) s
      (CallShown vm s.app.java obj id false args) (obj ≠ 0) :=
  around_before hlisted horig rfl hready (reportCall_report hready hown methodname id args false)
    fun s₁ => Report.line _ s₁

/-- A call of a static method with a primitive result is traced. -/
theorem callStaticPrimMethodV_traced {obj : ℕ}
    (hown : obj ≠ 0 → ∀ {k : Kind} (request : Request abi k), act.own request = ownCall vm request)
    (methodname label : String) (T : Prim) (id : ℕ) (args : abi.VaList) :
    Traced vm (k := .prim T)
      (callStaticPrimMethodV vm act methodname label T (.word obj) (.app id) (.va args))
      (.CallStaticPrimMethodV T (.word obj) (.app id) (.va args)) s
      (CallShown vm s.app.java obj id true args) (obj ≠ 0) :=
  around_before hlisted horig rfl hready (reportCall_report hready hown methodname id args true)
    fun s₁ => Report.line _ s₁

/-- The characters that the original returned are written down, if there are any. -/
theorem GetStringUTFChars_traced {w : ℕ} (hw : w ≠ 0) (isCopy : ℕ) :
    Traced vm (k := .chars) (new_GetStringUTFChars vm act (.word w) isCopy)
      (.GetStringUTFChars (.word w) isCopy) s True False := by
  have hnull : Ref.word w ≠ .null := fun hnull => hw (Ref.word.inj hnull)
  have hvalid : Request.nullString (.GetStringUTFChars (.word w) isCopy : Request abi .chars) =
      false :=
    decide_eq_false hnull
  have hguard : ¬ (act.listed && decide (Ref.word w = .null)) = true := by
    rw [decide_eq_false hnull, Bool.and_false]
    exact Bool.false_ne_true
  rw [new_GetStringUTFChars, if_neg hguard]
  refine around_before hlisted horig hvalid hready (Report.nothing s) fun s₁ => ?_
  split_ifs with hchars
  · exact Report.nothing s₁
  · let text := vm.chars s₁.app.java (vm.run (.GetStringUTFChars (.word w) isCopy) s.app.java).word
    have hread : read vm (.app (vm.run (.GetStringUTFChars (.word w) isCopy) s.app.java).word) s₁ =
        some (text, s₁) := rfl
    refine Report.of_eq (run_bind hread) ?_
    split_ifs
    · exact Report.nothing s₁
    · exact Report.line _ s₁

/-- Each wrapper in its turn, where the tracer's own calls are not traced or there are none. -/
theorem wrapper_traced {k : Kind} (request : AppRequest abi k)
    (hnull : request.request.nullString = false)
    (hown : Describes vm s.app.java request →
      ∀ {k : Kind} (request : Request abi k), act.own request = ownCall vm request) :
    Traced vm (wrapper vm act request.request) request.request s (Reportable vm s.app.java request)
      (Describes vm s.app.java request) := by
  cases request with
  | CallObjectMethodV obj id args =>
    exact around_traced hlisted horig rfl hready
      (reportCall_report hready (fun h => hown (.inl h)) _ id args false)
      fun s₁ h₁ => result_report h₁ (fun h => hown (.inr h)) _ true
  | CallVoidMethodV obj id args =>
    exact around_before hlisted horig rfl hready (reportCall_report hready hown _ id args false)
      fun s₁ => Report.nothing s₁
  | CallPrimMethodV T obj id args =>
    cases T <;> exact callPrimMethodV_traced hlisted horig hready hown _ _ _ id args
  | CallStaticObjectMethodV obj id args =>
    exact around_traced hlisted horig rfl hready
      (reportCall_report hready (fun h => hown (.inl h)) _ id args true)
      fun s₁ h₁ => result_report h₁ (fun h => hown (.inr h)) _ true
  | CallStaticVoidMethodV obj id args =>
    exact around_before hlisted horig rfl hready (reportCall_report hready hown _ id args true)
      fun s₁ => Report.nothing s₁
  | CallStaticPrimMethodV T obj id args =>
    cases T <;> exact callStaticPrimMethodV_traced hlisted horig hready hown _ _ _ id args
  | NewStringUTF bytes =>
    exact around_before hlisted horig rfl hready (Report.line _ s) fun s₁ => Report.nothing s₁
  | GetStringUTFChars argstring isCopy =>
    exact GetStringUTFChars_traced hlisted horig hready
      (fun hzero => of_decide_eq_false hnull (congrArg _ hzero)) isCopy
  | FindClass name =>
    exact around_before hlisted horig rfl hready (Report.line _ s) fun s₁ => Report.nothing s₁
  | NewObjectV clazz id args =>
    exact around_after hlisted horig rfl hready fun s₁ h₁ =>
      ((Report.line _ s₁).seq fun s₂ h₂ => newObject_report (h₂.app.trans h₁) hown args).congr
        (and_iff_right trivial) (or_iff_right not_false)
  | ToReflectedMethod clazz id isStatic =>
    exact around_after hlisted horig rfl hready fun s₁ h₁ => reportResult_report h₁ hown _ false
  | FromReflectedMethod method =>
    exact around_before hlisted horig rfl hready (getJObjectInfoInternal_report hready hown _ false)
      fun s₁ => Report.nothing s₁
  | GetFieldID clazz name sig =>
    exact around_before hlisted horig rfl hready
      ((reportField_report hready (hown trivial) clazz fun text s₁ => Report.line _ s₁).congr
        (and_iff_left trivial) Iff.rfl)
      fun s₁ => Report.nothing s₁
  | GetStaticFieldID clazz name sig =>
    exact around_before hlisted horig rfl hready
      (reportField_report hready (hown trivial) clazz fun text s₁ =>
        staticField_report text name sig s₁)
      fun s₁ => Report.nothing s₁
  | GetObjectField argObj id =>
    exact around_after hlisted horig rfl hready fun s₁ h₁ => reportResult_report h₁ hown _ true
  | GetPrimField T argObj id =>
    cases T <;> exact around_before hlisted horig rfl hready (Report.nothing s) fun s₁ =>
      Report.line _ s₁
  | GetStaticObjectField clazz id =>
    exact around_after hlisted horig rfl hready fun s₁ h₁ => reportResult_report h₁ hown _ true
  | GetStaticPrimField T clazz id =>
    cases T <;> exact around_before hlisted horig rfl hready (Report.nothing s) fun s₁ =>
      Report.line _ s₁

end Wrappers

end XposedJniTrace.Jni
