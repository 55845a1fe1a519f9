import XposedJniTrace.Jni.Wrappers

/-!
# What a report does

The helpers of the wrappers, as the tracer's own calls come to the functions of JNI: when a report
goes through, and what it leaves behind. A report leaves what belongs to the app as it is; the local
references that it makes it keeps in part, and the name of a class is read from a buffer that was
released.
-/

namespace XposedJniTrace.Jni

open Mylibc (CString c_str ascii my_strcmp my_strstr)
open XposedJniTrace.Java (Prim Text)
open JniTrace (primOf argsInfo)
open Variadic (Abi)

variable {abi : Abi} {W : Type} {vm : JavaVM abi W}

section Run

variable {α β : Type} {s s' : State abi W}

/-- A run goes on behind its first part. -/
theorem run_bind {x : Hook abi W α} {f : α → Hook abi W β} {a : α} (h : x s = some (a, s')) :
    (x >>= f) s = f a s' := by
  change (x s).bind (fun p => f p.1 p.2) = _
  rw [h]
  rfl

/-- A run whose first part has no end has none. -/
theorem run_bind_none {x : Hook abi W α} {f : α → Hook abi W β} (h : x s = none) :
    (x >>= f) s = none := by
  change (x s).bind (fun p => f p.1 p.2) = _
  rw [h]
  rfl

end Run

/-- What belongs to the app stays, the references and the buffers of the tracer are kept, and a
misuse is not forgotten. -/
structure Extends (s s' : State abi W) : Prop where
  app : s'.app = s.app
  calls : s'.calls = s.calls
  locals : ∃ l, s'.own.locals = l ++ s.own.locals
  buffers : s.own.buffers <+: s'.own.buffers
  misused : s.own.misused = true → s'.own.misused = true

/-- References are left, and a buffer was used behind its release, or is left as well. -/
structure Own.Leaves (own : Own) : Prop where
  locals : own.locals ≠ []
  buffers : own.misused = true ∨ true ∈ own.buffers

namespace Extends

variable {s s₁ s₂ : State abi W}

/-- A state extends itself. -/
theorem refl (s : State abi W) : Extends s s := ⟨rfl, rfl, ⟨[], rfl⟩, List.prefix_rfl, id⟩

/-- A state that extends one that extends a state extends it. -/
theorem trans (h₁ : Extends s s₁) (h₂ : Extends s₁ s₂) : Extends s s₂ := by
  obtain ⟨l₁, hl₁⟩ := h₁.locals
  obtain ⟨l₂, hl₂⟩ := h₂.locals
  refine ⟨h₂.app.trans h₁.app, h₂.calls.trans h₁.calls, ⟨l₂ ++ l₁, ?_⟩, h₁.buffers.trans h₂.buffers,
    fun h => h₂.misused (h₁.misused h)⟩
  rw [hl₂, hl₁, List.append_assoc]

/-- What a reference leads to stays. -/
theorem thing (h : Extends s s₁) {ref : Ref} {thing : Thing}
    (hthing : s.thing vm ref = some thing) :
    s₁.thing vm ref = some thing := by
  cases ref with
  | word w =>
    rw [State.thing] at hthing ⊢
    rw [h.app]
    exact hthing
  | own k other =>
    obtain ⟨l, hl⟩ := h.locals
    rw [State.thing] at hthing ⊢
    rw [hl]
    split_ifs at hthing with hmem
    rw [if_pos (List.mem_append_right l hmem)]
    exact hthing

/-- References that are kept are still there behind what follows. -/
theorem locals_ne_nil (h : Extends s s₁) (hs : s.own.locals ≠ []) : s₁.own.locals ≠ [] := by
  obtain ⟨l, hl⟩ := h.locals
  rw [hl]
  exact List.append_ne_nil_of_right_ne_nil l hs

/-- What is left is still left behind what follows. -/
theorem leaves (h : Extends s s₁) (hs : s.own.Leaves) : s₁.own.Leaves :=
  ⟨h.locals_ne_nil hs.locals, hs.buffers.imp h.misused fun hheld => h.buffers.subset hheld⟩

end Extends

/-- A line is written, and nothing of the wrappers changes. -/
theorem write_returns (msg : Text) (s : State abi W) :
    ∃ s', write msg s = some ((), s') ∧ Extends s s' ∧ s'.own = s.own := by
  refine ⟨_, rfl, ?_, ?_⟩
  · split_ifs
    · exact .refl s
    · exact ⟨rfl, rfl, ⟨[], rfl⟩, List.prefix_rfl, id⟩
  · split_ifs
    · rfl
    · rfl

/-- How a report ends: it goes through under a condition and is forbidden otherwise, and it leaves
something behind or nothing at all. -/
structure Report (report : Hook abi W Unit) (s : State abi W) (through leaves : Prop) : Prop where
  returns : through → ∃ s', report s = some ((), s') ∧ Extends s s' ∧ (leaves → s'.own.Leaves) ∧
    (¬ leaves → s'.own = s.own)
  ends : ¬ through → report s = none

namespace Report

variable {s : State abi W} {first second : Hook abi W Unit} {P Q D E : Prop}

/-- Nothing is a report that always comes to its end. -/
theorem nothing (s : State abi W) : Report (pure ()) s True False :=
  ⟨fun _ => ⟨s, rfl, .refl s, False.elim, fun _ => rfl⟩, fun h => absurd trivial h⟩

/-- A line goes through and leaves nothing. -/
theorem line (msg : Text) (s : State abi W) : Report (write msg) s True False := by
  obtain ⟨s', hrun, hextends, hown⟩ := write_returns msg s
  exact ⟨fun _ => ⟨s', hrun, hextends, False.elim, fun _ => hown⟩, fun h => absurd trivial h⟩

/-- Two reports, one behind the other. -/
theorem seq (hfirst : Report first s P D) (hsecond : ∀ s₁, Extends s s₁ → Report second s₁ Q E) :
    Report (first >>= fun _ => second) s (P ∧ Q) (D ∨ E) := by
  by_cases hP : P
  · obtain ⟨s₁, hrun, h₁, hleaves, hown⟩ := hfirst.returns hP
    have hreport := hsecond s₁ h₁
    refine ⟨?_, ?_⟩
    · rintro ⟨-, hQ⟩
      obtain ⟨s₂, hrun₂, h₂, hleaves₂, hown₂⟩ := hreport.returns hQ
      refine ⟨s₂, (run_bind hrun).trans hrun₂, h₁.trans h₂, ?_, ?_⟩
      · rintro (hD | hE)
        · exact h₂.leaves (hleaves hD)
        · exact hleaves₂ hE
      · intro hneither
        rw [hown₂ fun hE => hneither (.inr hE), hown fun hD => hneither (.inl hD)]
    · intro hnot
      rw [run_bind hrun]
      exact hreport.ends fun hQ => hnot ⟨hP, hQ⟩
  · exact ⟨fun h => absurd h.1 hP, fun _ => run_bind_none (hfirst.ends hP)⟩

/-- Only what a report does at the state matters. -/
theorem of_eq (hrun : first s = second s) (h : Report second s P D) : Report first s P D :=
  ⟨fun hP => hrun ▸ h.returns hP, fun hnot => hrun.trans (h.ends hnot)⟩

/-- The conditions matter up to equivalence. -/
theorem congr (h : Report first s P D) (hP : P ↔ Q) (hD : D ↔ E) : Report first s Q E := by
  rw [← hP, ← hD]
  exact h

end Report

section Primitives

variable {s : State abi W}

/-- The state with one more reference. -/
def State.push (s : State abi W) (thing : Thing) : State abi W :=
  { s with own :=
    { s.own with made := s.own.made + 1, locals := .own s.own.made thing :: s.own.locals } }

/-- The state with one more buffer. -/
def State.fill (s : State abi W) : State abi W :=
  { s with own := { s.own with buffers := s.own.buffers ++ [true] } }

/-- A new reference extends the state. -/
theorem extends_push (s : State abi W) (thing : Thing) : Extends s (s.push thing) :=
  ⟨rfl, rfl, ⟨[.own s.own.made thing], rfl⟩, List.prefix_rfl, id⟩

/-- A new buffer extends the state. -/
theorem extends_fill (s : State abi W) : Extends s s.fill :=
  ⟨rfl, rfl, ⟨[], rfl⟩, List.prefix_append _ _, id⟩

/-- A new reference leads to its thing. -/
theorem thing_push (vm : JavaVM abi W) (s : State abi W) (thing : Thing) :
    (s.push thing).thing vm (.own s.own.made thing) = some thing := if_pos List.mem_cons_self

/-- Without an exception in flight a call can be made. -/
theorem ready_eq (hready : s.app.pending = false) : (ready : Hook abi W Unit) s = some ((), s) := by
  rw [ready, hready]
  rfl

/-- A reference that leads to a thing does so. -/
theorem thingAt_eq (hready : s.app.pending = false) {ref : Ref} {thing : Thing}
    (hthing : s.thing vm ref = some thing) : thingAt vm ref s = some (thing, s) := by
  rw [thingAt, run_bind (ready_eq hready), hthing]
  rfl

/-- A reference that leads nowhere ends the run. -/
theorem thingAt_none (hready : s.app.pending = false) {ref : Ref}
    (hthing : s.thing vm ref = none) : thingAt vm ref s = none := by
  rw [thingAt, run_bind (ready_eq hready), hthing]
  rfl

/-- `GetObjectClass` gives a new reference to the class of the thing. -/
theorem GetObjectClass_eq (hready : s.app.pending = false) {ref : Ref} {thing : Thing}
    (hthing : s.thing vm ref = some thing) :
    GetObjectClass vm ref s =
      some (.own s.own.made (.jclass (vm.view thing).className),
        s.push (.jclass (vm.view thing).className)) := by
  rw [GetObjectClass, run_bind (thingAt_eq hready hthing)]
  rfl

/-- A method of a class that is there is found. -/
theorem GetMethodID_eq (hready : s.app.pending = false) {ref : Ref} {name : CString}
    (hthing : s.thing vm ref = some (.jclass name)) (id : OwnID) :
    GetMethodID vm ref id s = some (.own id, s) := by
  rw [GetMethodID, run_bind (thingAt_eq hready hthing)]
  rfl

/-- `FindClass` gives a new reference to the class. -/
theorem FindClass_eq (hready : s.app.pending = false) (name : CString) :
    ownCall vm (.FindClass (some name)) s =
      some (.own s.own.made (.jclass (dotted name)), s.push (.jclass (dotted name))) := by
  rw [own_FindClass, run_bind (ready_eq hready)]
  rfl

/-- `NewStringUTF` gives a new reference to the string. -/
theorem NewStringUTF_eq (vm : JavaVM abi W) (hready : s.app.pending = false) (bytes : CString) :
    ownCall vm (.NewStringUTF (some bytes)) s =
      some (.own s.own.made (.jstring bytes), s.push (.jstring bytes)) := by
  rw [own_NewStringUTF, run_bind (ready_eq hready)]
  rfl

/-- `GetStringUTFChars` gives a new buffer with the text. -/
theorem GetStringUTFChars_eq (hready : s.app.pending = false) {ref : Ref} {text : CString}
    (hthing : s.thing vm ref = some (.jstring text)) (isCopy : ℕ) :
    ownCall vm (.GetStringUTFChars ref isCopy) s =
      some (.own s.own.buffers.length text, s.fill) := by
  rw [own_GetStringUTFChars, run_bind (thingAt_eq hready hthing)]
  rfl

/-- `getName` of a class gives a new reference to its name. -/
theorem getName_eq (hready : s.app.pending = false) {ref : Ref} {name : CString}
    (hthing : s.thing vm ref = some (.jclass name)) (args : Args abi) :
    ownCall vm (.CallObjectMethodV ref (.own .getName) args) s =
      some (.own s.own.made (.jstring name), s.push (.jstring name)) := by
  rw [own_CallObjectMethodV, run_bind (thingAt_eq hready hthing)]
  rfl

/-- A method that is looked up in a class of the platform. -/
theorem run_lookup (hready : s.app.pending = false) (name : CString) (id : OwnID) {α : Type}
    (f : Ref → MethodID → Hook abi W α) :
    (ownCall vm (.FindClass (some name)) >>= fun clazz => GetMethodID vm clazz id >>= f clazz) s =
      f (.own s.own.made (.jclass (dotted name))) (.own id) (s.push (.jclass (dotted name))) := by
  have hready₁ : (s.push (.jclass (dotted name))).app.pending = false := hready
  rw [run_bind (FindClass_eq hready name), run_bind (GetMethodID_eq hready₁ (thing_push vm s _) id)]

/-- The state behind a release. -/
def State.release (s : State abi W) (k : ℕ) : State abi W :=
  { s with own := { s.own with
      buffers := s.own.buffers.set k false
      misused := s.own.misused || s.own.buffers[k]? != some true } }

/-- The state behind a reading. -/
def State.look (s : State abi W) (k : ℕ) : State abi W :=
  { s with own := { s.own with misused := s.own.misused || s.own.buffers[k]? != some true } }

/-- The state without a reference. -/
def State.drop (s : State abi W) (ref : Ref) : State abi W :=
  { s with own := { s.own with locals := s.own.locals.erase ref } }

/-- A buffer is released while the string's reference is there. -/
theorem ReleaseStringUTFChars_eq {str : Ref} (h : str ∈ s.own.locals) (k : ℕ) (text : CString) :
    ReleaseStringUTFChars str (.own k text) s = some ((), s.release k) := if_pos h

/-- A reference that is there is deleted. -/
theorem DeleteLocalRef_eq {ref : Ref} (h : ref ∈ s.own.locals) :
    DeleteLocalRef ref s = some ((), s.drop ref) := if_pos h

/-- A buffer that is read extends the state. -/
theorem extends_look (s : State abi W) (k : ℕ) : Extends s (s.look k) := by
  refine ⟨rfl, rfl, ⟨[], rfl⟩, List.prefix_rfl, ?_⟩
  intro h
  change (s.own.misused || _) = true
  rw [h, Bool.true_or]

/-- Reading a buffer that was released is a misuse. -/
theorem misused_look {k : ℕ} (h : s.own.buffers[k]? = some false) :
    (s.look k).own.misused = true := by
  change (s.own.misused || s.own.buffers[k]? != some true) = true
  rw [h]
  exact Bool.or_true _

/-- The null reference leads to no thing. -/
theorem ne_null_of_thing {ref : Ref} {thing : Thing} (h : s.thing vm ref = some thing) :
    ref ≠ .null := by
  intro hnull
  rw [hnull] at h
  cases h

end Primitives

section Named

/-- What `FindClass` finds for the name of a class. -/
abbrev classThing : Thing := .jclass (dotted (c_str (ascii "java/lang/Class")))

/-- The state behind `getJObjectClassInfo`. -/
def State.named (s : State abi W) (name : CString) : State abi W :=
  (((s.push classThing).push (.jstring name)).fill.release s.own.buffers.length).drop
    (.own (s.own.made + 1) (.jstring name))

variable (s : State abi W) (name : CString)

/-- What is named has one more reference. -/
theorem named_locals : (s.named name).own.locals = .own s.own.made classThing :: s.own.locals :=
  List.erase_cons_head _ _

/-- What is named has one more buffer. -/
theorem named_buffers : (s.named name).own.buffers = s.own.buffers ++ [false] := by
  change (s.own.buffers ++ [true]).set s.own.buffers.length false = _
  simp

/-- The state behind a name extends the one in front. -/
theorem extends_named : Extends s (s.named name) := by
  refine ⟨rfl, rfl, ⟨[.own s.own.made classThing], named_locals s name⟩, ?_, ?_⟩
  · rw [named_buffers]
    exact List.prefix_append _ _
  intro h
  change (s.own.misused || _) = true
  rw [h, Bool.true_or]

/-- The name of a class is read behind the release of its buffer. -/
theorem misused_named : ((s.named name).look s.own.buffers.length).own.misused = true := by
  apply misused_look
  rw [named_buffers]
  exact List.getElem?_concat_length

end Named

/-- The text of an object can be had by the branch that the name of a class selects. -/
def Describable (vm : JavaVM abi W) (thing : Option Thing) (classInfo : CString) : Prop :=
  match primOf classInfo with
  | some _ => True
  | none =>
    ∃ t, thing = some t ∧
      if (my_strstr classInfo.bytes (ascii "[")).isSome then
        if my_strcmp classInfo.bytes (ascii "[B") = 0 then
          ∃ utf8, (vm.view t).content = .byteArray utf8
        else ∃ text, (vm.view t).content = .refArray text
      else ∃ text, (vm.view t).toString = .text text

/-- The name of a class that is neither a primitive type's nor an array's selects `toString`. -/
theorem describable_plain {thing : Thing} {classInfo : CString} (hprim : primOf classInfo = none)
    (harray : (my_strstr classInfo.bytes (ascii "[")).isSome = false) :
    Describable vm (some thing) classInfo ↔ ∃ text, (vm.view thing).toString = .text text := by
  rw [Describable, hprim]
  dsimp only
  rw [harray]
  constructor
  · rintro ⟨t, ht, htext⟩
    rw [Option.some.inj ht]
    exact htext
  · exact fun htext => ⟨thing, rfl, htext⟩

/-- What a reference of the app leads to. -/
def JavaVM.lookup (vm : JavaVM abi W) (java : W) (w : ℕ) : Option Thing :=
  if w = 0 then none else (vm.object java w).map .object

/-- An object of the app can be described with the name of its own class. -/
def Shown (vm : JavaVM abi W) (java : W) (w : ℕ) : Prop :=
  ∃ thing, vm.lookup java w = some thing ∧ Describable vm (some thing) (vm.view thing).className

section Deleted

variable (s : State abi W) (first second third : Thing)

/-- The second of three new references goes, and then the first. -/
theorem mem_push_second :
    .own (s.push first).own.made second ∈ (((s.push first).push second).push third).own.locals :=
  List.mem_cons_of_mem _ List.mem_cons_self

/-- Of three references the second is deleted. -/
theorem drop_second :
    ((((s.push first).push second).push third).drop
      (.own (s.push first).own.made second)).own.locals =
      .own ((s.push first).push second).own.made third ::
        .own s.own.made first :: s.own.locals := by
  change (Ref.own (s.own.made + 1 + 1) third :: .own (s.own.made + 1) second ::
    .own s.own.made first :: s.own.locals).erase (.own (s.own.made + 1) second) = _
  rw [List.erase_cons_tail (by simp), List.erase_cons_head]
  rfl

/-- The first of the references is still there. -/
theorem mem_drop_first :
    .own s.own.made first ∈ ((((s.push first).push second).push third).drop
      (.own (s.push first).own.made second)).own.locals := by
  rw [drop_second]
  exact List.mem_cons_of_mem _ List.mem_cons_self

/-- Of three references two are deleted. -/
theorem drop_both :
    (((((s.push first).push second).push third).drop (.own (s.push first).own.made second)).drop
      (.own s.own.made first)).own.locals =
        .own ((s.push first).push second).own.made third :: s.own.locals := by
  change List.erase (State.own (State.drop _ _)).locals _ = _
  rw [drop_second]
  change (Ref.own (s.own.made + 1 + 1) third :: .own s.own.made first :: s.own.locals).erase
    (.own s.own.made first) = _
  rw [List.erase_cons_tail (by simp; omega), List.erase_cons_head]
  rfl

end Deleted

section Texts

variable {s : State abi W}

/-- The state without a pending exception. -/
def State.cleared (s : State abi W) : State abi W :=
  { s with app := { s.app with pending := false } }

/-- Where no exception is in flight, none is cleared. -/
theorem cleared_eq (hready : s.app.pending = false) : s.cleared = s := by
  change { s with app := ⟨s.app.java, false, s.app.locals⟩ } = s
  rw [← hready]

/-- What follows a state in which no exception is pending has none either. -/
theorem Extends.ready {s' : State abi W} (h : Extends s s') (hready : s.app.pending = false) :
    s'.app.pending = false := by
  rw [h.app, hready]

/-- The text of a number is a new reference. -/
theorem staticToString_eq (hready : s.app.pending = false) {clazz : Ref} {thing : Thing}
    (hclazz : s.thing vm clazz = some thing) (T : Prim) (arg : Ref) :
    ownCall vm (.CallStaticObjectMethodV clazz (.own (.staticToString T)) (.refs [arg])) s =
      some (.own s.own.made (.jstring (vm.primText T arg)),
        s.push (.jstring (vm.primText T arg))) := by
  rw [own_CallStaticObjectMethodV, run_bind (thingAt_eq hready hclazz)]
  rfl

/-- `toString` is called on the object that the reference leads to. -/
theorem toString_eq (hready : s.app.pending = false) {obj : Ref} {thing : Thing}
    (hobj : s.thing vm obj = some thing) (args : Args abi) :
    ownCall vm (.CallObjectMethodV obj (.own .toString) args) s = invoke vm thing .toString s := by
  rw [own_CallObjectMethodV, run_bind (thingAt_eq hready hobj)]

/-- A reference that leads nowhere has no text. -/
theorem GetStringUTFChars_none (hready : s.app.pending = false) {ref : Ref}
    (href : s.thing vm ref = none) (isCopy : ℕ) :
    ownCall vm (.GetStringUTFChars ref isCopy) s = none := by
  rw [own_GetStringUTFChars, run_bind_none (thingAt_none hready href)]

/-- A buffer is read, and the state only grows. -/
theorem read_returns (vm : JavaVM abi W) (chars : Chars) (s : State abi W) :
    ∃ text s', read vm chars s = some (text, s') ∧ Extends s s' := by
  cases chars with
  | app w => exact ⟨_, s, rfl, .refl s⟩
  | own k text => exact ⟨text, s.look k, rfl, extends_look s k⟩

/-- Writing a line goes through. -/
theorem writeInfo_returns (message : Text) (isPrintClassinfo : Bool) (classInfo ret : Chars)
    (s : State abi W) :
    ∃ s', writeInfo vm message isPrintClassinfo classInfo ret s = some ((), s') ∧ Extends s s' := by
  rw [writeInfo]
  by_cases hret : ret = .null
  · rw [if_pos hret]
    exact ⟨s, rfl, .refl s⟩
  · obtain ⟨text, s₁, hread, h₁⟩ := read_returns vm ret s
    rw [if_neg hret, run_bind hread]
    split_ifs with hempty hprint
    · exact ⟨s₁, rfl, h₁⟩
    · obtain ⟨name, s₂, hread₂, h₂⟩ := read_returns vm classInfo s₁
      obtain ⟨s₃, hwrite, h₃, -⟩ := write_returns
        (message ++ ascii "  " ++ name.bytes ++ ascii "  " ++ text.bytes ++ ascii "\n") s₂
      rw [run_bind hread₂]
      exact ⟨s₃, hwrite, (h₁.trans h₂).trans h₃⟩
    · obtain ⟨s₂, hwrite, h₂, -⟩ :=
        write_returns (message ++ ascii "  " ++ text.bytes ++ ascii "\n") s₁
      exact ⟨s₂, hwrite, h₁.trans h₂⟩

end Texts

/-- A buffer of the tracer is there. -/
theorem own_ne_null (k : ℕ) (text : CString) : Chars.own k text ≠ .null := by
  intro hnull
  cases hnull

section Described

variable {act : Activation abi W} (hown : ∀ {k : Kind} (request : Request abi k),
  act.own request = ownCall vm request)

include hown

/-- The name of a class comes in a buffer that is released; a reference to the class `Class` is
kept. -/
theorem getJObjectClassInfo_eq {s : State abi W} (hready : s.app.pending = false) {obj : Ref}
    {name : CString} (hobj : s.thing vm obj = some (.jclass name)) :
    getJObjectClassInfo vm act obj s = some (.own s.own.buffers.length name, s.named name) := by
  have hready₁ : (s.push classThing).app.pending = false := hready
  have hready₂ : ((s.push classThing).push (.jstring name)).app.pending = false := hready
  have hobj₁ := (extends_push s classThing).thing hobj
  have hname := getName_eq hready₁ hobj₁ (.refs [])
  have hchars := GetStringUTFChars_eq hready₂ (thing_push vm (s.push classThing) _) 0
  simp only [getJObjectClassInfo, if_neg (ne_null_of_thing hobj), hown]
  rw [run_lookup hready, run_bind hname, run_bind hchars,
    run_bind (ReleaseStringUTFChars_eq List.mem_cons_self _ _),
    run_bind (DeleteLocalRef_eq List.mem_cons_self)]
  rfl

/-- The static `toString` of a boxing class answers whatever it finds. -/
theorem primToString_returns {s : State abi W} (hready : s.app.pending = false)
    (T : Prim) (obj : Ref) :
    ∃ ret s', primToString vm act T obj s = some (ret, s') ∧ Extends s s' := by
  let clazz : Thing := .jclass (dotted (boxPath T))
  let str : Thing := .jstring (vm.primText T obj)
  have hready₁ : (s.push clazz).app.pending = false := hready
  have hready₂ : ((s.push clazz).push str).app.pending = false := hready
  have hstr := staticToString_eq hready₁ (thing_push vm s clazz) T obj
  have hchars := GetStringUTFChars_eq hready₂ (thing_push vm (s.push clazz) str) 0
  have hrun : primToString vm act T obj s =
      some (.own (s.push clazz).own.buffers.length (vm.primText T obj),
        ((s.push clazz).push str).fill) := by
    simp only [primToString, hown]
    rw [run_lookup hready, run_bind hstr]
    exact hchars
  exact ⟨_, _, hrun, ((extends_push s _).trans (extends_push _ _)).trans (extends_fill _)⟩

/-- `toString` goes through when it answers a text. -/
theorem getJObjectToString_returns {s : State abi W} (hready : s.app.pending = false) {obj : Ref}
    {thing : Thing} (hobj : s.thing vm obj = some thing) {text : CString}
    (htext : (vm.view thing).toString = .text text) :
    ∃ s', getJObjectToString vm act obj s = some (.own s.own.buffers.length text, s') ∧
      Extends s s' ∧ s'.own.locals ≠ [] ∧ s'.own.buffers = s.own.buffers ++ [true] := by
  let clazz : Thing := .jclass (dotted (c_str (ascii "java/lang/Object")))
  have hready₁ : (s.push clazz).app.pending = false := hready
  have hready₂ : ((s.push clazz).push (.jstring text)).app.pending = false := hready
  have hinvoke : invoke vm thing .toString (s.push clazz) =
      some (.own (s.push clazz).own.made (.jstring text), (s.push clazz).push (.jstring text)) := by
    rw [invoke, htext]
    rfl
  have hstr := (toString_eq hready₁ ((extends_push s clazz).thing hobj) (.refs [])).trans hinvoke
  have hchars := GetStringUTFChars_eq hready₂ (thing_push vm (s.push clazz) (.jstring text)) 0
  refine ⟨((s.push clazz).push (.jstring text)).fill, ?_, ?_, List.cons_ne_nil _ _, rfl⟩
  · simp only [getJObjectToString, hown]
    rw [run_lookup hready, run_bind hstr]
    exact hchars
  · exact ((extends_push s _).trans (extends_push _ _)).trans (extends_fill _)

/-- Where `toString` does not answer a text, a null string is passed on, with an exception pending
or without one. -/
theorem getJObjectToString_none {s : State abi W} (hready : s.app.pending = false) {w : ℕ}
    (h : ¬ ∃ thing, s.thing vm (.word w) = some thing ∧ ∃ text,
      (vm.view thing).toString = .text text) :
    getJObjectToString vm act (.word w) s = none := by
  let clazz : Thing := .jclass (dotted (c_str (ascii "java/lang/Object")))
  have hready₁ : (s.push clazz).app.pending = false := hready
  simp only [getJObjectToString, hown]
  rw [run_lookup hready]
  cases hthing : s.thing vm (.word w) with
  | none => rw [own_CallObjectMethodV, run_bind_none (run_bind_none (thingAt_none hready₁ hthing))]
  | some thing =>
    have hobj : (s.push clazz).thing vm (.word w) = some thing := hthing
    have hstr := toString_eq hready₁ hobj (.refs [])
    rw [invoke] at hstr
    cases hending : (vm.view thing).toString with
    | text text => exact absurd ⟨thing, hthing, text, hending⟩ h
    | null =>
      rw [hending] at hstr
      rw [run_bind hstr]
      exact GetStringUTFChars_none hready₁ rfl 0
    | throws =>
      -- the exception is still pending when the string is asked for its characters
      rw [hending] at hstr
      rw [run_bind hstr, own_GetStringUTFChars]
      rfl

/-- The branch for arrays of bytes gives its two references back and keeps the string. -/
theorem byteArrayToString_returns {s : State abi W} (hready : s.app.pending = false) {obj : Ref}
    {thing : Thing} (hobj : s.thing vm obj = some thing) {utf8 : CString}
    (hcontent : (vm.view thing).content = .byteArray utf8) :
    ∃ k s', byteArrayToString vm act obj s = some (.own k (.jstring utf8), s') ∧ Extends s s' ∧
      s'.thing vm (.own k (.jstring utf8)) = some (.jstring utf8) := by
  let clazz : Thing := .jclass (dotted (c_str (ascii "java/lang/String")))
  let utf : Thing := .jstring (c_str (ascii "UTF-8"))
  have hready₁ : (s.push clazz).app.pending = false := hready
  have hready₂ : ((s.push clazz).push utf).app.pending = false := hready
  have hclazz := (extends_push (s.push clazz) utf).thing (thing_push vm s clazz)
  have hobj₂ := (extends_push (s.push clazz) utf).thing ((extends_push s clazz).thing hobj)
  have hutf := NewStringUTF_eq vm hready₁ (c_str (ascii "UTF-8"))
  have hnew : ownCall vm (.NewObjectV (.own s.own.made clazz) (.own .newString)
        (.refs [obj, .own (s.push clazz).own.made utf])) ((s.push clazz).push utf) =
      some (.own ((s.push clazz).push utf).own.made (.jstring utf8),
        ((s.push clazz).push utf).push (.jstring utf8)) := by
    rw [own_NewObjectV, run_bind (thingAt_eq hready₂ hclazz), newString,
      run_bind (thingAt_eq hready₂ hobj₂),
      run_bind (thingAt_eq hready₂ (thing_push vm _ _)), hcontent]
    rfl
  refine ⟨((s.push clazz).push utf).own.made, ((((s.push clazz).push utf).push (.jstring utf8)).drop
      (.own (s.push clazz).own.made utf)).drop (.own s.own.made clazz), ?_, ?_, ?_⟩
  · simp only [byteArrayToString, hown]
    rw [run_bind (FindClass_eq hready _), run_bind hutf,
      run_bind (GetMethodID_eq hready₂ hclazz .newString), run_bind hnew,
      run_bind (DeleteLocalRef_eq (mem_push_second _ _ _ _)),
      run_bind (DeleteLocalRef_eq (mem_drop_first _ _ _ _))]
    rfl
  · exact ⟨rfl, rfl, ⟨[_], drop_both _ _ _ _⟩, List.prefix_rfl, id⟩
  · exact if_pos (drop_both s clazz utf (.jstring utf8) ▸ List.mem_cons_self)

/-- `Arrays.toString` is called with the array, in front of whatever it finds. -/
theorem arraysToString_eq {s : State abi W} (hready : s.app.pending = false) (obj : Ref) :
    arraysToString vm act obj s =
      invokeStatic vm .arraysToString [obj]
        (s.push (.jclass (dotted (c_str (ascii "java/util/Arrays"))))) := by
  have hready₁ : (s.push (.jclass (dotted (c_str (ascii "java/util/Arrays"))))).app.pending =
      false := hready
  simp only [arraysToString, hown]
  rw [run_lookup hready, own_CallStaticObjectMethodV,
    run_bind (thingAt_eq hready₁ (thing_push vm _ _))]

/-- `Arrays.toString` gives a string, or null with the exception of the `toString` of an element. -/
theorem arraysToString_returns {s : State abi W} (hready : s.app.pending = false) {obj : Ref}
    {thing : Thing} (hobj : s.thing vm obj = some thing) {text : Option CString}
    (hcontent : (vm.view thing).content = .refArray text) :
    ∃ ret s', arraysToString vm act obj s = some (ret, s') ∧ Extends s s'.cleared ∧
      (ret = .null ∨ s'.app.pending = false ∧ ∃ str, s'.thing vm ret = some (.jstring str)) := by
  let clazz : Thing := .jclass (dotted (c_str (ascii "java/util/Arrays")))
  have hready₁ : (s.push clazz).app.pending = false := hready
  have hobj₁ := (extends_push s clazz).thing hobj
  have hcall := arraysToString_eq hown hready obj
  rw [invokeStatic, run_bind (thingAt_eq hready₁ hobj₁), hcontent] at hcall
  have happ : s.cleared.app = s.app := congrArg State.app (cleared_eq hready)
  cases text with
  | none =>
    refine ⟨.null, { s.push clazz with app := ⟨s.app.java, true, s.app.locals⟩ },
      hcall, ?_, .inl rfl⟩
    exact ⟨happ, rfl, ⟨[_], rfl⟩, List.prefix_rfl, id⟩
  | some text =>
    refine ⟨_, (s.push clazz).push (.jstring text), hcall, ?_, .inr ⟨hready, text, ?_⟩⟩
    · exact ⟨happ, rfl, ⟨[_, _], rfl⟩, List.prefix_rfl, id⟩
    · exact thing_push vm _ _

/-- An array that is not one of references is an argument of the wrong class. -/
theorem arraysToString_none {s : State abi W} (hready : s.app.pending = false) {w : ℕ}
    (h : ¬ ∃ thing, s.thing vm (.word w) = some thing ∧ ∃ text,
      (vm.view thing).content = .refArray text) :
    arraysToString vm act (.word w) s = none := by
  let clazz : Thing := .jclass (dotted (c_str (ascii "java/util/Arrays")))
  have hready₁ : (s.push clazz).app.pending = false := hready
  have hcall := arraysToString_eq hown hready (.word w)
  rw [hcall, invokeStatic]
  cases hthing : s.thing vm (.word w) with
  | none => exact run_bind_none (thingAt_none hready₁ hthing)
  | some thing =>
    have hobj : (s.push clazz).thing vm (.word w) = some thing := hthing
    rw [run_bind (thingAt_eq hready₁ hobj)]
    cases hcontent : (vm.view thing).content with
    | refArray text => exact absurd ⟨thing, hthing, text, hcontent⟩ h
    | byteArray utf8 => rfl
    | other => rfl

/-- What is no array of bytes has no text. -/
theorem byteArrayToString_none {s : State abi W} (hready : s.app.pending = false) {w : ℕ}
    (h : ¬ ∃ thing, s.thing vm (.word w) = some thing ∧ ∃ utf8,
      (vm.view thing).content = .byteArray utf8) :
    byteArrayToString vm act (.word w) s = none := by
  let clazz : Thing := .jclass (dotted (c_str (ascii "java/lang/String")))
  let utf : Thing := .jstring (c_str (ascii "UTF-8"))
  have hready₁ : (s.push clazz).app.pending = false := hready
  have hready₂ : ((s.push clazz).push utf).app.pending = false := hready
  have hclazz := (extends_push (s.push clazz) utf).thing (thing_push vm s clazz)
  have hutf := NewStringUTF_eq vm hready₁ (c_str (ascii "UTF-8"))
  simp only [byteArrayToString, hown]
  rw [run_bind (FindClass_eq hready _), run_bind hutf,
    run_bind (GetMethodID_eq hready₂ hclazz .newString), own_NewObjectV]
  apply run_bind_none
  rw [run_bind (thingAt_eq hready₂ hclazz), newString]
  cases hthing : s.thing vm (.word w) with
  | none => exact run_bind_none (thingAt_none hready₂ hthing)
  | some thing =>
    have hobj : ((s.push clazz).push utf).thing vm (.word w) = some thing := hthing
    rw [run_bind (thingAt_eq hready₂ hobj), run_bind (thingAt_eq hready₂ (thing_push vm _ _))]
    cases hcontent : (vm.view thing).content with
    | byteArray utf8 => exact absurd ⟨thing, hthing, utf8, hcontent⟩ h
    | refArray text => rfl
    | other => rfl

/-- The text of an object is had, and an exception that is left pending is cleared behind it. -/
theorem objectToString_returns {s : State abi W} (hready : s.app.pending = false) {obj : Ref}
    {classInfo : CString} (h : Describable vm (s.thing vm obj) classInfo) :
    ∃ ret s', objectToString vm act obj classInfo s = some (ret, s') ∧ Extends s s'.cleared := by
  rw [Describable] at h
  rw [objectToString]
  cases hprim : primOf classInfo with
  | some T =>
    obtain ⟨ret, s', hrun, hextends⟩ := primToString_returns hown hready T obj
    refine ⟨ret, s', hrun, ?_⟩
    rw [cleared_eq (hextends.ready hready)]
    exact hextends
  | none =>
    rw [hprim] at h
    obtain ⟨thing, hobj, h⟩ := h
    dsimp only
    split_ifs at h ⊢ with harray hbytes
    · obtain ⟨utf8, hcontent⟩ := h
      obtain ⟨k, s', hrun, hextends, hstr⟩ := byteArrayToString_returns hown hready hobj hcontent
      have hready' := hextends.ready hready
      refine ⟨.own s'.own.buffers.length utf8, s'.fill, ?_, ?_⟩
      · rw [run_bind hrun, if_neg (ne_null_of_thing hstr), hown]
        exact GetStringUTFChars_eq hready' hstr 0
      · rw [cleared_eq (s := s'.fill) hready']
        exact hextends.trans (extends_fill s')
    · obtain ⟨text, hcontent⟩ := h
      obtain ⟨ret, s', hrun, hextends, hret⟩ := arraysToString_returns hown hready hobj hcontent
      rcases hret with hnull | ⟨hready', str, hstr⟩
      · refine ⟨.null, s', ?_, hextends⟩
        rw [run_bind hrun, if_pos hnull]
        rfl
      · rw [cleared_eq hready'] at hextends
        refine ⟨.own s'.own.buffers.length str, s'.fill, ?_, ?_⟩
        · rw [run_bind hrun, if_neg (ne_null_of_thing hstr), hown]
          exact GetStringUTFChars_eq hready' hstr 0
        · rw [cleared_eq (s := s'.fill) hready']
          exact hextends.trans (extends_fill s')
    · obtain ⟨text, htext⟩ := h
      obtain ⟨s', hrun, hextends, -⟩ := getJObjectToString_returns hown hready hobj htext
      refine ⟨_, s', hrun, ?_⟩
      rw [cleared_eq (hextends.ready hready)]
      exact hextends

/-- What cannot be described as its class has no text. -/
theorem objectToString_none {s : State abi W} (hready : s.app.pending = false) {w : ℕ}
    {classInfo : CString} (h : ¬ Describable vm (s.thing vm (.word w)) classInfo) :
    objectToString vm act (.word w) classInfo s = none := by
  rw [Describable] at h
  rw [objectToString]
  cases hprim : primOf classInfo with
  | some T =>
    rw [hprim] at h
    exact absurd trivial h
  | none =>
    rw [hprim] at h
    dsimp only at h ⊢
    split_ifs at h ⊢ with harray hbytes
    · exact run_bind_none (byteArrayToString_none hown hready h)
    · exact run_bind_none (arraysToString_none hown hready h)
    · exact getJObjectToString_none hown hready h

/-- What is described by the name of a class that is in a buffer: it goes through when the text can
be had, and is a misuse when the buffer was released. -/
theorem describe_returns {s : State abi W} (hready : s.app.pending = false) {obj : Ref} {k : ℕ}
    {name : CString} (h : Describable vm (s.thing vm obj) name) (message : Text)
    (isPrintClassinfo : Bool) :
    ∃ s', describe vm act obj message isPrintClassinfo (.own k name) s = some ((), s') ∧
      Extends (s.look k) s' := by
  have hlook : read vm (.own k name) s = some (name, s.look k) := rfl
  have hthing : Describable vm ((s.look k).thing vm obj) name := by
    cases obj <;> exact h
  have hready₁ : (s.look k).app.pending = false := hready
  obtain ⟨ret, s₂, hrun, h₂⟩ := objectToString_returns hown hready₁ hthing
  obtain ⟨s₃, hwrite, h₃⟩ := writeInfo_returns message isPrintClassinfo (.own k name) ret s₂.cleared
  refine ⟨s₃, ?_, h₂.trans h₃⟩
  have hcheck : (ExceptionCheck : Hook abi W Bool) s₂ = some (s₂.app.pending, s₂) := rfl
  rw [describe, if_neg (own_ne_null k name), run_bind hlook, run_bind hrun, run_bind hcheck]
  cases hpending : s₂.app.pending with
  | true =>
    have hclear : (ExceptionClear : Hook abi W Unit) s₂ = some ((), s₂.cleared) := rfl
    exact (run_bind hclear).trans hwrite
  | false =>
    rw [cleared_eq hpending] at hwrite
    exact hwrite

/-- What cannot be described has no description. -/
theorem describe_none {s : State abi W} (hready : s.app.pending = false) {w k : ℕ} {name : CString}
    (h : ¬ Describable vm (s.thing vm (.word w)) name) (message : Text) (isPrintClassinfo : Bool) :
    describe vm act (.word w) message isPrintClassinfo (.own k name) s = none := by
  have hlook : read vm (.own k name) s = some (name, s.look k) := rfl
  have hready₁ : (s.look k).app.pending = false := hready
  rw [describe, if_neg (own_ne_null k name), run_bind hlook,
    run_bind_none (objectToString_none hown hready₁ h)]

/-- An object with the name of its own class: it goes through when the text can be had. The name is
read behind the release of its buffer, and two references are kept. -/
theorem getJObjectInfoInternal_returns {s : State abi W}
    (hready : s.app.pending = false) {obj : Ref}
    {thing : Thing} (hobj : s.thing vm obj = some thing)
    (h : Describable vm (some thing) (vm.view thing).className) (message : Text)
    (isPrintClassinfo : Bool) :
    ∃ s', getJObjectInfoInternal vm act obj message isPrintClassinfo .null s = some ((), s') ∧
      Extends s s' ∧ s'.own.Leaves := by
  let name := (vm.view thing).className
  let s₁ := s.push (.jclass name)
  let s₂ := s₁.named name
  have hready₁ : s₁.app.pending = false := hready
  have hready₂ : s₂.app.pending = false := (extends_named s₁ name).ready hready₁
  have h₂ : Extends s s₂ := (extends_push s _).trans (extends_named s₁ name)
  have hname := getJObjectClassInfo_eq hown hready₁ (thing_push vm s _)
  have hdescribable : Describable vm (s₂.thing vm obj) name := by
    rw [h₂.thing hobj]
    exact h
  obtain ⟨s₃, hrun, h₃⟩ := describe_returns hown (k := s₁.own.buffers.length) hready₂
    hdescribable message
    isPrintClassinfo
  refine ⟨s₃, ?_, (h₂.trans (extends_look s₂ _)).trans h₃, ?_, .inl ?_⟩
  · rw [getJObjectInfoInternal, if_neg (ne_null_of_thing hobj), if_pos rfl,
      run_bind (GetObjectClass_eq hready hobj), run_bind hname]
    exact hrun
  · refine ((extends_look s₂ s₁.own.buffers.length).trans h₃).locals_ne_nil ?_
    rw [named_locals]
    exact List.cons_ne_nil _ _
  · exact h₃.misused (misused_named s₁ name)

/-- What cannot be described as what it is ends the report. -/
theorem getJObjectInfoInternal_none {s : State abi W} (hready : s.app.pending = false) {w : ℕ}
    (hw : Ref.word w ≠ .null)
    (h : ¬ ∃ thing, s.thing vm (.word w) = some thing ∧
      Describable vm (some thing) (vm.view thing).className) (message : Text)
        (isPrintClassinfo : Bool) :
    getJObjectInfoInternal vm act (.word w) message isPrintClassinfo .null s = none := by
  rw [getJObjectInfoInternal, if_neg hw, if_pos rfl]
  cases hthing : s.thing vm (.word w) with
  | none =>
    rw [GetObjectClass]
    exact run_bind_none (run_bind_none (thingAt_none hready hthing))
  | some thing =>
    let name := (vm.view thing).className
    let s₁ := s.push (.jclass name)
    have hready₁ : s₁.app.pending = false := hready
    have hready₂ : (s₁.named name).app.pending = false := (extends_named s₁ name).ready hready₁
    have hname := getJObjectClassInfo_eq hown hready₁ (thing_push vm s _)
    have hw₂ : (s₁.named name).thing vm (.word w) = some thing := hthing
    have hnot : ¬ Describable vm ((s₁.named name).thing vm (.word w)) name := by
      rw [hw₂]
      exact fun hdescribable => h ⟨thing, hthing, hdescribable⟩
    rw [run_bind (GetObjectClass_eq hready hthing), run_bind hname]
    exact describe_none hown hready₂ hnot message isPrintClassinfo

end Described

/-- The report of an object of the app. -/
theorem getJObjectInfoInternal_report {act : Activation abi W} {s : State abi W}
    (hready : s.app.pending = false) {w : ℕ}
    (hown : w ≠ 0 → ∀ {k : Kind} (request : Request abi k), act.own request = ownCall vm request)
    (message : Text) (isPrintClassinfo : Bool) :
    Report (getJObjectInfoInternal vm act (.word w) message isPrintClassinfo .null) s
      (w = 0 ∨ Shown vm s.app.java w) (w ≠ 0) := by
  by_cases hw : w = 0
  · subst hw
    rw [getJObjectInfoInternal, if_pos rfl]
    exact (Report.nothing s).congr (by simp) (by simp)
  · refine ⟨?_, ?_⟩
    · intro h
      obtain ⟨thing, hthing, hdescribable⟩ := h.resolve_left hw
      have hobj : s.thing vm (.word w) = some thing := hthing
      obtain ⟨s', hrun, hextends, hleaves⟩ := getJObjectInfoInternal_returns (hown hw) hready hobj
        hdescribable message isPrintClassinfo
      exact ⟨s', hrun, hextends, fun _ => hleaves, fun hnot => absurd hw hnot⟩
    · intro h
      exact getJObjectInfoInternal_none (hown hw) hready (fun hnull => hw (Ref.word.inj hnull))
        (fun hshown => h (.inr hshown)) message isPrintClassinfo

end XposedJniTrace.Jni
