import XposedJniTrace.Jni.Reports

/-!
# What the report of a method does

The report of a method call: the method as reflection shows it, and the arguments by the names of
their declared types. Each argument is drawn as a reference, of whatever type it is declared.
-/

namespace XposedJniTrace.Jni

open Mylibc (CString c_str ascii my_strstr)
open XposedJniTrace.Java (Prim Text)
open JniTrace (primOf argsInfo)
open Variadic (Abi)

variable {abi : Abi} {W : Type} {vm : JavaVM abi W}

/-- The arguments of a method can be reported as they are drawn, all of them as references: there is
nothing, or the text can be had that the declared type selects. -/
def Params (vm : JavaVM abi W) (java : W) : List CString → abi.VaList → Prop
  | [], _ => True
  | classInfo :: types, args =>
    ((abi.draw .general args).1 = 0 ∨
      Describable vm (vm.lookup java (abi.draw .general args).1) classInfo) ∧
      Params vm java types (abi.draw .general args).2

/-- The method can be reported: its id is derived from the class of the object, it is static or not
as the caller has it, and its arguments can be reported. -/
def Reflected (vm : JavaVM abi W) (java : W) (w : ℕ) (id : MethodID) (isStatic : Bool)
    (args : abi.VaList) : Prop :=
  ∃ thing, vm.lookup java w = some thing ∧ vm.derives (vm.view thing).className id = true ∧
    (vm.method id).isStatic = isStatic ∧ Params vm java (vm.method id).parameterTypes args

/-- A reflected method answers to `toString`. -/
theorem describable_reflected (vm : JavaVM abi W) (id : MethodID) :
    Describable vm (some (.reflected id)) (vm.view (.reflected id)).className := by
  have hclass : primOf (vm.view (.reflected id)).className = none ∧
      (my_strstr (vm.view (.reflected id)).className.bytes (ascii "[")).isSome = false := by
    rw [JavaVM.view]
    dsimp only
    split_ifs
    · decide +kernel
    · decide +kernel
  exact (describable_plain hclass.1 hclass.2).mpr ⟨_, rfl⟩

/-- A method of the class is reflected. -/
theorem ToReflectedMethod_eq {s : State abi W} (hready : s.app.pending = false) {clazz : Ref}
    {name : CString} (hclazz : s.thing vm clazz = some (.jclass name)) {id : MethodID}
    {isStatic : Bool}
    (hderives : vm.derives name id = true) (hstatic : (vm.method id).isStatic = isStatic) :
    ownCall vm (.ToReflectedMethod clazz id isStatic) s =
      some (.own s.own.made (.reflected id), s.push (.reflected id)) := by
  rw [own_ToReflectedMethod, run_bind (thingAt_eq hready hclazz)]
  dsimp only
  rw [hderives, hstatic, Bool.true_and, beq_self_eq_true, if_pos rfl]
  rfl

/-- A method that the class has not is not reflected. -/
theorem ToReflectedMethod_none {s : State abi W} (hready : s.app.pending = false) {clazz : Ref}
    {name : CString} (hclazz : s.thing vm clazz = some (.jclass name)) {id : MethodID}
    {isStatic : Bool}
    (h : ¬ (vm.derives name id = true ∧ (vm.method id).isStatic = isStatic)) :
    ownCall vm (.ToReflectedMethod clazz id isStatic) s = none := by
  rw [own_ToReflectedMethod, run_bind (thingAt_eq hready hclazz)]
  dsimp only
  rw [if_neg]
  · rfl
  · rw [Bool.and_eq_true, beq_iff_eq]
    exact h

section Described

variable {act : Activation abi W} (hown : ∀ {k : Kind} (request : Request abi k),
  act.own request = ownCall vm request)

include hown

/-- An argument with the name of its declared type. -/
theorem getJObjectInfoInternal_param {s : State abi W} (hready : s.app.pending = false) {w k : ℕ}
    {name : CString} (h : w = 0 ∨ Describable vm (vm.lookup s.app.java w) name) (message : Text)
    (isPrintClassinfo : Bool) :
    ∃ s', getJObjectInfoInternal vm act (.word w) message isPrintClassinfo (.own k name) s =
      some ((), s') ∧ Extends s s' := by
  rw [getJObjectInfoInternal]
  by_cases hnull : Ref.word w = .null
  · rw [if_pos hnull]
    exact ⟨s, rfl, .refl s⟩
  · have hw : w ≠ 0 := fun hzero => hnull (congrArg Ref.word hzero)
    have hthing : Describable vm (s.thing vm (.word w)) name := h.resolve_left hw
    obtain ⟨s', hrun, h'⟩ := describe_returns hown (k := k) hready hthing message isPrintClassinfo
    rw [if_neg hnull, if_neg (own_ne_null k name)]
    exact ⟨s', hrun, (extends_look s k).trans h'⟩

/-- What is no reference to something describable does not come to its end as an argument. -/
theorem getJObjectInfoInternal_param_none {s : State abi W}
    (hready : s.app.pending = false) {w k : ℕ}
    {name : CString} (h : ¬ (w = 0 ∨ Describable vm (vm.lookup s.app.java w) name)) (message : Text)
    (isPrintClassinfo : Bool) :
    getJObjectInfoInternal vm act (.word w) message isPrintClassinfo (.own k name) s = none := by
  obtain ⟨hw, hnot⟩ := not_or.mp h
  have hnull : Ref.word w ≠ .null := fun hnull => hw (Ref.word.inj hnull)
  rw [getJObjectInfoInternal, if_neg hnull, if_neg (own_ne_null k name)]
  exact describe_none hown hready hnot message isPrintClassinfo

/-- One step of the loop: the class of the parameter, its name, and the argument. -/
theorem argsLoop_succ {s : State abi W} (hready : s.app.pending = false) {array : Ref}
    {types : List CString} (harray : s.thing vm array = some (.classArray types)) {i : ℕ}
    {name : CString} (hi : types[i]? = some name) (n : ℕ) (args : abi.VaList) :
    argsLoop vm act array (n + 1) i (.va args) s =
      (getJObjectInfoInternal vm act (.word (abi.draw .general args).1) (argsInfo i) true
          (.own s.own.buffers.length name) >>= fun _ =>
        argsLoop vm act array n (i + 1) (.va (abi.draw .general args).2))
        ((s.push (.jclass name)).named name) := by
  have hready₁ : (s.push (.jclass name)).app.pending = false := hready
  have helement : GetObjectArrayElement vm array i s =
      some (.own s.own.made (.jclass name), s.push (.jclass name)) := by
    rw [GetObjectArrayElement, run_bind (thingAt_eq hready harray)]
    dsimp only
    rw [hi]
    rfl
  rw [argsLoop, run_bind helement, if_neg nofun,
    run_bind (getJObjectClassInfo_eq hown hready₁ (thing_push vm s _))]
  rfl

/-- The loop goes through when the arguments can be reported as they are drawn. -/
theorem argsLoop_returns {types : List CString} (rest : List CString) {array : Ref} {i : ℕ}
    (hrest : types.drop i = rest) {args : abi.VaList} {s : State abi W}
    (hready : s.app.pending = false)
    (harray : s.thing vm array = some (.classArray types)) (h : Params vm s.app.java rest args) :
    ∃ s', argsLoop vm act array rest.length i (.va args) s = some ((), s') ∧ Extends s s' := by
  induction rest generalizing i args s with
  | nil => exact ⟨s, rfl, .refl s⟩
  | cons name rest ih =>
    obtain ⟨hparam, hparams⟩ := h
    have hi : types[i]? = some name := by
      rw [← List.head?_drop, hrest, List.head?_cons]
    have hnext : types.drop (i + 1) = rest := by
      rw [← List.tail_drop, hrest, List.tail_cons]
    let s₁ := (s.push (.jclass name)).named name
    have h₁ : Extends s s₁ := (extends_push s _).trans (extends_named _ name)
    obtain ⟨s₂, hrun, h₂⟩ := getJObjectInfoInternal_param hown (s := s₁) (k := s.own.buffers.length)
      hready hparam (argsInfo i) true
    have hextends := h₁.trans h₂
    have hparams₂ : Params vm s₂.app.java rest (abi.draw .general args).2 := by
      rw [hextends.app]
      exact hparams
    obtain ⟨s₃, hloop, h₃⟩ := ih hnext (hextends.ready hready) (hextends.thing harray) hparams₂
    refine ⟨s₃, ?_, hextends.trans h₃⟩
    rw [List.length_cons, argsLoop_succ hown hready harray hi, run_bind hrun]
    exact hloop

/-- Arguments that are no references to things of their types end the loop. -/
theorem argsLoop_none {types : List CString} (rest : List CString) {array : Ref} {i : ℕ}
    (hrest : types.drop i = rest) {args : abi.VaList} {s : State abi W}
    (hready : s.app.pending = false)
    (harray : s.thing vm array = some (.classArray types)) (h : ¬ Params vm s.app.java rest args) :
    argsLoop vm act array rest.length i (.va args) s = none := by
  induction rest generalizing i args s with
  | nil => exact absurd trivial h
  | cons name rest ih =>
    have hi : types[i]? = some name := by
      rw [← List.head?_drop, hrest, List.head?_cons]
    have hnext : types.drop (i + 1) = rest := by
      rw [← List.tail_drop, hrest, List.tail_cons]
    let s₁ := (s.push (.jclass name)).named name
    have h₁ : Extends s s₁ := (extends_push s _).trans (extends_named _ name)
    rw [List.length_cons, argsLoop_succ hown hready harray hi]
    by_cases hparam : (abi.draw .general args).1 = 0 ∨
        Describable vm (vm.lookup s.app.java (abi.draw .general args).1) name
    · obtain ⟨s₂, hrun, h₂⟩ :=
        getJObjectInfoInternal_param hown (s := s₁) (k := s.own.buffers.length)
        hready hparam (argsInfo i) true
      have hextends := h₁.trans h₂
      have hparams₂ : ¬ Params vm s₂.app.java rest (abi.draw .general args).2 := by
        rw [hextends.app]
        exact fun hparams => h ⟨hparam, hparams⟩
      rw [run_bind hrun]
      exact ih hnext (hextends.ready hready) (hextends.thing harray) hparams₂
    · exact run_bind_none
        (getJObjectInfoInternal_param_none hown (s := s₁) hready hparam (argsInfo i) true)

/-- Without parameters the report of a reflected method ends at their number. -/
theorem parametersInfo_of_nil {s : State abi W} (hready : s.app.pending = false) {method : Ref}
    {id : MethodID} (hmethod : s.thing vm method = some (.reflected id))
    (hnil : (vm.method id).parameterTypes = []) (args : Args abi) :
    ∃ s', parametersInfo vm act method args s = some ((), s') ∧ Extends s s' := by
  let clazz : Thing := .jclass (vm.view (.reflected id)).className
  have hready₁ : (s.push clazz).app.pending = false := hready
  have hmethod₁ := (extends_push s clazz).thing hmethod
  have hcount : ownCall vm (.CallPrimMethodV .int method (.own .getParameterCount) (.refs []))
      (s.push clazz) = some (BitVec.ofNat 32 (vm.method id).parameterTypes.length,
        s.push clazz) := by
    rw [own_getParameterCount, run_bind (thingAt_eq hready₁ hmethod₁)]
    rfl
  refine ⟨s.push clazz, ?_, extends_push s clazz⟩
  rw [parametersInfo, run_bind (GetObjectClass_eq hready hmethod),
    run_bind (GetMethodID_eq hready₁ (thing_push vm s _) _),
      hown, run_bind (α := BitVec 32) hcount, hnil]
  rfl

/-- With parameters it goes on with the loop over them. -/
theorem parametersInfo_of_ne_nil {s : State abi W} (hready : s.app.pending = false) {method : Ref}
    {id : MethodID} (hmethod : s.thing vm method = some (.reflected id))
    (hne : (vm.method id).parameterTypes ≠ []) (args : Args abi) :
    ∃ array s', parametersInfo vm act method args s =
        argsLoop vm act array (vm.method id).parameterTypes.length 0 args s' ∧ Extends s s' ∧
      s'.thing vm array = some (.classArray (vm.method id).parameterTypes) := by
  let clazz : Thing := .jclass (vm.view (.reflected id)).className
  let array : Thing := .classArray (vm.method id).parameterTypes
  have hready₁ : (s.push clazz).app.pending = false := hready
  have hmethod₁ := (extends_push s clazz).thing hmethod
  have hcount : ownCall vm (.CallPrimMethodV .int method (.own .getParameterCount) (.refs []))
      (s.push clazz) = some (BitVec.ofNat 32 (vm.method id).parameterTypes.length,
        s.push clazz) := by
    rw [own_getParameterCount, run_bind (thingAt_eq hready₁ hmethod₁)]
    rfl
  have htypes : ownCall vm (.CallObjectMethodV method (.own .getParameterTypes) (.refs []))
      (s.push clazz) = some (.own (s.push clazz).own.made array, (s.push clazz).push array) := by
    rw [own_CallObjectMethodV, run_bind (thingAt_eq hready₁ hmethod₁)]
    rfl
  have hfew := (vm.method id).few
  have hpos : 0 < (vm.method id).parameterTypes.length := List.length_pos_iff.mpr hne
  have hnat : (BitVec.ofNat 32 (vm.method id).parameterTypes.length).toNat =
      (vm.method id).parameterTypes.length := by
    rw [BitVec.toNat_ofNat, Nat.mod_eq_of_lt (by omega)]
  have hsize : BitVec.ofNat 32 (vm.method id).parameterTypes.length ≠ 0 := by
    intro hzero
    rw [hzero] at hnat
    exact hpos.ne hnat
  have hint : (BitVec.ofNat 32 (vm.method id).parameterTypes.length).toInt.toNat =
      (vm.method id).parameterTypes.length := by
    rw [BitVec.toInt_eq_toNat_of_lt (by omega), hnat]
    rfl
  refine ⟨.own (s.push clazz).own.made array, (s.push clazz).push array, ?_,
    (extends_push s _).trans (extends_push _ _), thing_push vm _ _⟩
  simp only [parametersInfo, hown]
  rw [run_bind (GetObjectClass_eq hready hmethod),
    run_bind (GetMethodID_eq hready₁ (thing_push vm s _) _), run_bind (α := BitVec 32) hcount,
      if_neg hsize,
    run_bind (GetMethodID_eq hready₁ (thing_push vm s _) _), run_bind htypes, hint]

/-- The report of the parameters goes through when the arguments can be reported. -/
theorem parametersInfo_returns {s : State abi W} (hready : s.app.pending = false) {method : Ref}
    {id : MethodID} (hmethod : s.thing vm method = some (.reflected id)) {args : abi.VaList}
    (h : Params vm s.app.java (vm.method id).parameterTypes args) :
    ∃ s', parametersInfo vm act method (.va args) s = some ((), s') ∧ Extends s s' := by
  by_cases hnil : (vm.method id).parameterTypes = []
  · exact parametersInfo_of_nil hown hready hmethod hnil (.va args)
  · obtain ⟨array, s₁, hrun, h₁, harray⟩ :=
      parametersInfo_of_ne_nil hown hready hmethod hnil (.va args)
    have hparams : Params vm s₁.app.java (vm.method id).parameterTypes args := by
      rw [h₁.app]
      exact h
    obtain ⟨s₂, hloop, h₂⟩ :=
      argsLoop_returns hown _ List.drop_zero (h₁.ready hready) harray hparams
    exact ⟨s₂, hrun.trans hloop, h₁.trans h₂⟩

/-- Without arguments of its types a method cannot be reported. -/
theorem parametersInfo_none {s : State abi W} (hready : s.app.pending = false) {method : Ref}
    {id : MethodID} (hmethod : s.thing vm method = some (.reflected id)) {args : abi.VaList}
    (h : ¬ Params vm s.app.java (vm.method id).parameterTypes args) :
    parametersInfo vm act method (.va args) s = none := by
  have hne : (vm.method id).parameterTypes ≠ [] := by
    intro hnil
    rw [hnil] at h
    exact h trivial
  obtain ⟨array, s₁, hrun, h₁, harray⟩ :=
    parametersInfo_of_ne_nil hown hready hmethod hne (.va args)
  have hparams : ¬ Params vm s₁.app.java (vm.method id).parameterTypes args := by
    rw [h₁.app]
    exact h
  rw [hrun]
  exact argsLoop_none hown _ List.drop_zero (h₁.ready hready) harray hparams

end Described

/-- The report of a method call. -/
theorem getArgsInfo_report {act : Activation abi W} {s : State abi W}
    (hready : s.app.pending = false)
    {w : ℕ} {id : MethodID}
    (hown : w ≠ 0 ∧ id ≠ .app 0 →
      ∀ {k : Kind} (request : Request abi k), act.own request = ownCall vm request)
    (args : abi.VaList) (isStatic : Bool) :
    Report (getArgsInfo vm act (.word w) id (.va args) isStatic) s
      (w = 0 ∨ id = .app 0 ∨ Reflected vm s.app.java w id isStatic args) (w ≠ 0 ∧ id ≠ .app 0) := by
  rw [getArgsInfo]
  by_cases hw : w = 0
  · subst hw
    rw [if_pos rfl]
    exact (Report.nothing s).congr (by simp) (by simp)
  by_cases hid : id = .app 0
  · rw [if_pos hid, ite_self]
    exact (Report.nothing s).congr (by simp [hid]) (by simp [hid])
  have hown₁ : ∀ {k : Kind} (request : Request abi k), act.own request = ownCall vm request :=
    hown ⟨hw, hid⟩
  rw [if_neg fun hnull => hw (Ref.word.inj hnull), if_neg hid]
  refine Report.congr (P := Reflected vm s.app.java w id isStatic args) (D := True) ⟨?_, ?_⟩
    (by simp [hw, hid]) (by simp [hw, hid])
  · rintro ⟨thing, hthing, hderives, hstatic, hparams⟩
    let clazz : Thing := .jclass (vm.view thing).className
    let s₁ := s.push clazz
    let s₂ := s₁.push (.reflected id)
    have hobj : s.thing vm (.word w) = some thing := hthing
    have hready₁ : s₁.app.pending = false := hready
    have hready₂ : s₂.app.pending = false := hready
    have hmethod : s₂.thing vm (.own s₁.own.made (.reflected id)) = some (.reflected id) :=
      thing_push vm s₁ _
    obtain ⟨s₃, hinfo, h₃, hleaves⟩ := getJObjectInfoInternal_returns hown₁ hready₂ hmethod
      (describable_reflected vm id) (ascii "invoke method") false
    have hparams₃ : Params vm s₃.app.java (vm.method id).parameterTypes args := by
      rw [h₃.app]
      exact hparams
    obtain ⟨s₄, hrun, h₄⟩ := parametersInfo_returns hown₁ (h₃.ready hready₂)
      (h₃.thing hmethod) hparams₃
    refine ⟨s₄, ?_, (((extends_push s _).trans (extends_push s₁ _)).trans h₃).trans h₄,
      fun _ => h₄.leaves hleaves, fun hnot => absurd trivial hnot⟩
    rw [run_bind (GetObjectClass_eq hready hobj), hown₁,
      run_bind (ToReflectedMethod_eq hready₁ (thing_push vm s clazz) hderives hstatic),
        run_bind hinfo]
    exact hrun
  · intro h
    cases hthing : s.thing vm (.word w) with
    | none =>
      rw [GetObjectClass]
      exact run_bind_none (run_bind_none (thingAt_none hready hthing))
    | some thing =>
      let clazz : Thing := .jclass (vm.view thing).className
      let s₁ := s.push clazz
      have hready₁ : s₁.app.pending = false := hready
      rw [run_bind (GetObjectClass_eq hready hthing), hown₁]
      by_cases hmethod : vm.derives (vm.view thing).className id = true ∧
        (vm.method id).isStatic = isStatic
      · let s₂ := s₁.push (.reflected id)
        have hready₂ : s₂.app.pending = false := hready
        have hreflected : s₂.thing vm (.own s₁.own.made (.reflected id)) = some (.reflected id) :=
          thing_push vm s₁ _
        obtain ⟨s₃, hinfo, h₃, -⟩ := getJObjectInfoInternal_returns hown₁ hready₂ hreflected
          (describable_reflected vm id) (ascii "invoke method") false
        have hparams : ¬ Params vm s₃.app.java (vm.method id).parameterTypes args := by
          rw [h₃.app]
          exact fun hparams => h ⟨thing, hthing, hmethod.1, hmethod.2, hparams⟩
        rw [run_bind (ToReflectedMethod_eq hready₁ (thing_push vm s clazz) hmethod.1 hmethod.2),
          run_bind hinfo]
        exact parametersInfo_none hown₁ (h₃.ready hready₂) (h₃.thing hreflected) hparams
      · exact run_bind_none (ToReflectedMethod_none hready₁ (thing_push vm s clazz) hmethod)

end XposedJniTrace.Jni
