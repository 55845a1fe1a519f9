import XposedJniTrace.Trace.ArgsInfo
import Mathlib.Data.List.Forall2

/-!
# Every argument is reported as what it is

The arguments of a call with their declared types, how the target passes them, and the line that
describes each of them. Nothing is written for a null reference or an empty text. The lines that
`getArgsInfo` writes are the right ones exactly when every argument is passed where a reference
would be, none of them is a primitive zero or an array of primitive values other than bytes, and
the reference to a boxed value happens to read as the value.
-/

namespace XposedJniTrace.JniTrace

open Mylibc Java Variadic

/-- The name of an array class whose elements are references. -/
structure ArrayName where
  element : UInt8
  rest : List UInt8
  isReference : element = 91 ∨ element = 76
  nonzero : 0 ∉ element :: rest

/-- The name itself, which starts with a bracket. -/
def ArrayName.name (array : ArrayName) : CString where
  bytes := 91 :: array.element :: array.rest
  nonzero := List.not_mem_cons_of_ne_of_not_mem (by decide) array.nonzero

/-- The name of a class that is no array and boxes no primitive type. -/
structure ClassName where
  name : CString
  notArray : 91 ∉ name.bytes
  notPrim : ∀ T : Prim, name.bytes ≠ T.name.bytes ∧ name.bytes ≠ T.boxName.bytes

/-- The name of the class of arrays of a primitive type. -/
def arrayName : Prim → CString
  | .boolean => c_str (ascii "[Z")
  | .byte => c_str (ascii "[B")
  | .char => c_str (ascii "[C")
  | .short => c_str (ascii "[S")
  | .int => c_str (ascii "[I")
  | .float => c_str (ascii "[F")
  | .double => c_str (ascii "[D")
  | .long => c_str (ascii "[J")

/-- The types of references. -/
inductive RefType where
  | boxed (T : Prim)
  | primArray (T : Prim)
  | refArray (array : ArrayName)
  | object (plain : ClassName)

/-- The name of the class of such references. -/
def RefType.name : RefType → CString
  | boxed T => T.boxName
  | primArray T => arrayName T
  | refArray array => array.name
  | object plain => plain.name

/-- A reference that is not null. -/
abbrev Ref := { ref : ℕ // ref ≠ 0 }

/-- An argument of a declared type, the object that it refers to being of that type. -/
inductive Argument (world : World) where
  | prim (T : Prim) (v : T.Value)
  | null (type : RefType)
  | boxed (ref : Ref) (T : Prim) (v : T.Value) (is : (world.heap ref).content = .boxed T v)
  | byteArray (ref : Ref) (utf8 : Text) (is : (world.heap ref).content = .byteArray utf8)
  | primArray (ref : Ref) (T : Prim) (notByte : T ≠ .byte) (text : Text)
      (is : (world.heap ref).content = .primArray T text)
  | refArray (ref : Ref) (array : ArrayName) (text : Text)
      (is : (world.heap ref).content = .refArray text)
  | object (ref : Ref) (plain : ClassName)

namespace Argument

variable {world : World}

/-- The name of the declared type. -/
def name : Argument world → CString
  | prim T _ => T.name
  | null type => type.name
  | boxed _ T _ _ => T.boxName
  | byteArray .. => arrayName .byte
  | primArray _ T _ _ _ => arrayName T
  | refArray _ array _ _ => array.name
  | object _ plain => plain.name

/-- Where the argument goes. -/
def kind : Argument world → Kind
  | prim T _ => T.kind
  | _ => .general

/-- The bits of the argument. -/
def word : Argument world → ℕ
  | prim T v => T.promote world.floats v
  | null _ => 0
  | boxed ref .. => ref
  | byteArray ref .. => ref
  | primArray ref .. => ref
  | refArray ref .. => ref
  | object ref _ => ref

/-- The text of the argument at its type, unless it is null. -/
def text : Argument world → Option Text
  | prim T v => some (T.text world.floats v)
  | null _ => none
  | boxed _ T v _ => some (T.text world.floats v)
  | byteArray _ utf8 _ => some utf8
  | primArray _ _ _ text _ => some text
  | refArray _ _ text _ => some text
  | object ref _ => some (world.heap ref).toString

/-- The argument is passed: an integer of at most 32 bits with anything in the bits above them,
everything else as its bits. -/
def Passes (abi : Abi) (argument : Argument world) (arg : Arg) : Prop :=
  arg.kind = argument.kind ∧
  match argument with
  | prim T v =>
    if T.kind = .general then
      arg.word < abi.bound ∧ arg.word % 2 ^ 32 = T.promote world.floats v
    else arg.word = T.promote world.floats v
  | argument => arg.word = argument.word

/-- The code reports the argument as what it is. -/
def Good (abi : Abi) : Argument world → Prop
  | prim T v => abi.likePointer T.kind = true ∧ T.promote world.floats v ≠ 0
  | boxed ref T v _ =>
    abi.likePointer T.kind = true ∧
      T.text world.floats (T.read world.floats ref) = T.text world.floats v
  | primArray .. => False
  | _ => True

end Argument

/-- The line of an argument with the name of its type and its text. -/
def reportLine (i : ℕ) (name : CString) (text : Option Text) : Option Text :=
  match text with
  | none => none
  | some ret =>
    if ret.length > 0 then
      some (argsInfo i ++ ascii "  " ++ name.bytes ++ ascii "  " ++ ret ++ ascii "\n")
    else none

/-- The lines that describe the arguments from an index on. -/
def reportLines {world : World} : ℕ → List (Argument world) → List (Option Text)
  | _, [] => []
  | i, argument :: rest => reportLine i argument.name argument.text :: reportLines (i + 1) rest

/-- At one index and type, different texts make different lines. -/
theorem reportLine_inj {i : ℕ} {name : CString} {s t : Text}
    (h : reportLine i name (some s) = reportLine i name (some t)) : s = t := by
  simp only [reportLine] at h
  split_ifs at h with hs ht ht
  · have hline := Option.some.inj h
    exact List.append_cancel_left (List.append_cancel_right hline)
  · rw [List.eq_nil_of_length_eq_zero (Nat.eq_zero_of_not_pos hs),
      List.eq_nil_of_length_eq_zero (Nat.eq_zero_of_not_pos ht)]

/-- A text that is not empty has a line. -/
theorem reportLine_isSome {i : ℕ} {name : CString} {s : Text} (h : s ≠ []) :
    reportLine i name (some s) ≠ none := by
  have hs : s.length > 0 := List.length_pos_of_ne_nil h
  simp only [reportLine, if_pos hs]
  exact Option.some_ne_none _

/-! ## The branches of the class names -/

/-- Each type takes the branch of its name, and of its box. -/
theorem primOf_names (T : Prim) : primOf T.name = some T ∧ primOf T.boxName = some T := by
  have hall : ([Prim.boolean, .byte, .char, .short, .int, .float, .double, .long].all fun T =>
      primOf T.name = some T ∧ primOf T.boxName = some T) = true := by decide +kernel
  refine of_decide_eq_true (List.all_eq_true.mp hall T ?_)
  cases T <;> decide

/-- The name of a primitive type is read as that type. -/
theorem primOf_name (T : Prim) : primOf T.name = some T := (primOf_names T).1

/-- The name of the boxing class is read as the type that it boxes. -/
theorem primOf_boxName (T : Prim) : primOf T.boxName = some T := (primOf_names T).2

/-- A name that is none of the names of the primitive types and their boxes. -/
theorem primOf_eq_none {name : CString}
    (h : ∀ T : Prim, name.bytes ≠ T.name.bytes ∧ name.bytes ≠ T.boxName.bytes) :
    primOf name = none := by
  rw [primOf, List.find?_eq_none]
  intro T _
  rw [Bool.or_eq_true, decide_eq_true_eq, decide_eq_true_eq, my_strcmp_eq_zero, my_strcmp_eq_zero]
  exact not_or.mpr (h T)

/-- No primitive type and no box has a name that begins as the name of an array does. -/
theorem primOf_of_bracket {name : CString} (h : name.bytes.head? = some 91) :
    primOf name = none := by
  apply primOf_eq_none
  have hhead : ∀ T : Prim, T.name.bytes.head? ≠ some 91 ∧ T.boxName.bytes.head? ≠ some 91 := by
    intro T
    cases T <;> decide
  intro T
  constructor
  · intro hname
    exact (hhead T).1 (hname ▸ h)
  · intro hname
    exact (hhead T).2 (hname ▸ h)

/-- The name of a primitive array starts with a bracket. -/
theorem arrayName_head (T : Prim) : (arrayName T).bytes.head? = some 91 := by
  cases T <;> rfl

/-- The name of a primitive array is read as no primitive type. -/
theorem primOf_arrayName (T : Prim) : primOf (arrayName T) = none :=
  primOf_of_bracket (arrayName_head T)

/-- The name of an array of references is read as no primitive type. -/
theorem primOf_array (array : ArrayName) : primOf array.name = none := primOf_of_bracket rfl

/-- An array is told by the bracket in its name. -/
theorem my_strstr_bracket (name : CString) :
    (my_strstr name.bytes (ascii "[")).isSome = true ↔ 91 ∈ name.bytes := by
  have hbracket : ascii "[" = (c_str (ascii "[")).bytes := rfl
  have hbytes : (c_str (ascii "[")).bytes = [91] := rfl
  rw [hbracket, my_strstr_isSome, hbytes]
  exact List.singleton_infix_iff 91 name.bytes

/-- Of the primitive arrays those of bytes alone are told apart. -/
theorem my_strcmp_arrayName (T : Prim) :
    my_strcmp (arrayName T).bytes (ascii "[B") = 0 ↔ T = .byte := by
  cases T <;> decide

/-- No array of references passes for one of bytes. -/
theorem my_strcmp_array (array : ArrayName) : my_strcmp array.name.bytes (ascii "[B") ≠ 0 := by
  have hbyte : ascii "[B" = (arrayName .byte).bytes := rfl
  have hbytes : (arrayName .byte).bytes = [91, 66] := rfl
  rw [hbyte, Ne, my_strcmp_eq_zero, hbytes]
  intro h
  have helement : array.element = 66 := (List.cons.inj (List.cons.inj h).2).1
  rcases array.isReference with hb | hL
  · exact absurd (hb.symm.trans helement) (by decide)
  · exact absurd (hL.symm.trans helement) (by decide)

/-! ## One argument -/

variable {abi : Abi} {world : World}

/-- A value of a kind that is drawn from where a pointer is: the variadic call yields the
reference itself. -/
theorem staticToString_of_likePointer {T : Prim} (h : abi.likePointer T.kind = true)
    (junk : Junk abi) (obj : ℕ) :
    staticToString abi world junk T obj = T.text world.floats (T.read world.floats obj) := by
  have hdraw := abi.draw_place junk.start ⟨.general, obj⟩ []
  simp only [staticToString, abi.draw_likePointer T.kind h]
  rw [hdraw]

/-- A value of another kind is read from what nothing specifies: the text is not always the same. -/
theorem likePointer_of_staticToString {T : Prim} {obj : ℕ} {text : Text}
    (h : ∀ junk, staticToString abi world junk T obj = text) : abi.likePointer T.kind = true := by
  by_contra hlike
  have hlike : abi.likePointer T.kind = false := Bool.eq_false_iff.mpr hlike
  have hkind : T.kind ≠ .general := by
    intro hgeneral
    rw [hgeneral, abi.general_likePointer] at hlike
    cases hlike
  obtain ⟨x, y, hxy⟩ :
      ∃ x y, T.text world.floats (T.read world.floats x) ≠
        T.text world.floats (T.read world.floats y) :=
    text_differs hkind
  obtain ⟨startX, hnamedX, hx⟩ := abi.draw_unspecified T.kind hlike obj x
  obtain ⟨startY, hnamedY, hy⟩ := abi.draw_unspecified T.kind hlike obj y
  have htextX := h ⟨startX, hnamedX, none⟩
  have htextY := h ⟨startY, hnamedY, none⟩
  simp only [staticToString, hx] at htextX
  simp only [staticToString, hy] at htextY
  exact hxy (htextX.trans htextY.symm)

/-- What the iteration of an argument writes for the word that it has drawn. -/
theorem getJObjectInfoInternal_eq (junk : Junk abi) (obj i : ℕ) (name : CString) :
    getJObjectInfoInternal abi world junk obj (argsInfo i) true (some name) =
      if obj = 0 then none else reportLine i name (objectText abi world junk obj name) := by
  rfl

/-- An object whose class is read as a primitive type is drawn as such a value. -/
theorem objectText_of_primOf {T : Prim} {name : CString} (h : primOf name = some T)
    (junk : Junk abi) (obj : ℕ) :
    objectText abi world junk obj name = some (staticToString abi world junk T obj) := by
  rw [objectText, h]

/-- An array of bytes is written as a string is. -/
theorem objectText_byteArray (junk : Junk abi) (obj : ℕ) :
    objectText abi world junk obj (arrayName .byte) = newString abi world junk obj := by
  have hbracket : (my_strstr (arrayName .byte).bytes (ascii "[")).isSome = true := rfl
  rw [objectText, primOf_arrayName]
  change (if _ then (if _ then _ else _) else _) = _
  rw [if_pos hbracket, if_pos ((my_strcmp_arrayName .byte).mpr rfl)]

/-- Every other array is written by `Arrays.toString` -/
theorem objectText_array {name : CString} (hprim : primOf name = none) (hbracket : 91 ∈ name.bytes)
    (hbyte : my_strcmp name.bytes (ascii "[B") ≠ 0) (junk : Junk abi) (obj : ℕ) :
    objectText abi world junk obj name = arraysToString abi world junk obj := by
  rw [objectText, hprim]
  change (if _ then (if _ then _ else _) else _) = _
  rw [if_pos ((my_strstr_bracket name).mpr hbracket), if_neg hbyte]

/-- Any other object is written by its own `toString` -/
theorem objectText_object (plain : ClassName) (junk : Junk abi) (obj : ℕ) :
    objectText abi world junk obj plain.name = some (world.heap obj).toString := by
  rw [objectText, primOf_eq_none plain.notPrim]
  change (if _ then _ else _) = _
  rw [if_neg fun h => plain.notArray ((my_strstr_bracket plain.name).mp h)]

namespace Argument

/-- A good argument is passed where a reference would be. -/
theorem Good.likePointer {argument : Argument world} (h : argument.Good abi) :
    abi.likePointer argument.kind = true := by
  cases argument with
  | prim T v => exact h.1
  | _ => exact abi.general_likePointer

/-- There is a way to pass an argument. -/
theorem passes_word (argument : Argument world) :
    argument.Passes abi ⟨argument.kind, argument.word⟩ := by
  cases argument with
  | prim T v =>
    refine ⟨rfl, ?_⟩
    change if _ then _ else _
    split_ifs with hkind
    · have hlt : T.promote world.floats v < 2 ^ 32 := promote_lt hkind v
      exact ⟨hlt.trans_le abi.le_bound, Nat.mod_eq_of_lt hlt⟩
    · rfl
  | _ => exact ⟨rfl, rfl⟩

/-- The line of a good argument is right, for whatever word it is passed as. -/
theorem Good.line {argument : Argument world} (h : argument.Good abi) {arg : Arg}
    (hpass : argument.Passes abi arg) (junk : Junk abi) (i : ℕ) :
    getJObjectInfoInternal abi world junk arg.word (argsInfo i) true (some argument.name) =
      reportLine i argument.name argument.text := by
  obtain ⟨-, hword⟩ := hpass
  rw [getJObjectInfoInternal_eq]
  cases argument with
  | prim T v =>
    obtain ⟨hlike, hzero⟩ := h
    change if T.kind = .general then _ else _ at hword
    have hread : T.read world.floats arg.word = v ∧ arg.word ≠ 0 := by
      split_ifs at hword with hkind
      · obtain ⟨-, hmod⟩ := hword
        refine ⟨read_of_general hkind hmod, fun hnull => hzero ?_⟩
        rw [← hmod, hnull, Nat.zero_mod]
      · have hwide : T.kind = .wide := by
          cases hT : T.kind with
          | general => exact absurd hT hkind
          | wide => rfl
          | floating => rw [hT, abi.floating_likePointer] at hlike; cases hlike
        rw [hword]
        exact ⟨read_of_wide hwide v, hzero⟩
    rw [if_neg hread.2, name, objectText_of_primOf (primOf_name T),
      staticToString_of_likePointer hlike, hread.1]
    rfl
  | null type =>
    change arg.word = 0 at hword
    rw [if_pos hword]
    rfl
  | boxed ref T v is =>
    obtain ⟨hlike, htext⟩ := h
    change arg.word = ref at hword
    rw [hword, if_neg ref.2, name, objectText_of_primOf (primOf_boxName T),
      staticToString_of_likePointer hlike, htext]
    rfl
  | byteArray ref utf8 is =>
    change arg.word = ref at hword
    rw [hword, if_neg ref.2, name, objectText_byteArray, newString, is]
    rfl
  | primArray => exact h.elim
  | refArray ref array text is =>
    change arg.word = ref at hword
    have hbracket : 91 ∈ array.name.bytes := List.mem_cons_self
    rw [hword, if_neg ref.2, name,
      objectText_array (primOf_array array) hbracket (my_strcmp_array array), arraysToString, is]
    rfl
  | object ref plain =>
    change arg.word = ref at hword
    rw [hword, if_neg ref.2, name, objectText_object]
    rfl

/-- An argument whose line is right, whatever the report finds that nothing specifies, is good.
Here `drawn` is the word that is drawn for it, its own if it is passed where a reference would
be. -/
theorem good_of_line {argument : Argument world} {drawn i : ℕ}
    (hdrawn : abi.likePointer argument.kind = true → drawn = argument.word)
    (hline : ∀ junk : Junk abi,
      getJObjectInfoInternal abi world junk drawn (argsInfo i) true (some argument.name) =
        reportLine i argument.name argument.text) :
    argument.Good abi := by
  simp only [getJObjectInfoInternal_eq] at hline
  obtain ⟨start, hnamed, -⟩ := abi.draw_unspecified .floating abi.floating_likePointer 0 0
  cases argument with
  | prim T v =>
    have hdrawn_ne : drawn ≠ 0 := by
      intro hnull
      have hnone := hline ⟨start, hnamed, none⟩
      rw [if_pos hnull] at hnone
      exact reportLine_isSome (text_ne_nil v) hnone.symm
    simp only [if_neg hdrawn_ne, name, objectText_of_primOf (primOf_name T)] at hline
    have hlike := likePointer_of_staticToString fun junk => reportLine_inj (hline junk)
    exact ⟨hlike, fun hzero => hdrawn_ne ((hdrawn hlike).trans hzero)⟩
  | boxed ref T v is =>
    have href : drawn = ref := hdrawn abi.general_likePointer
    simp only [href, if_neg ref.2, name, objectText_of_primOf (primOf_boxName T)] at hline
    have htext : ∀ junk, staticToString abi world junk T ref = T.text world.floats v :=
      fun junk => reportLine_inj (hline junk)
    have hlike := likePointer_of_staticToString htext
    have hread := htext ⟨start, hnamed, none⟩
    rw [staticToString_of_likePointer hlike] at hread
    exact ⟨hlike, hread⟩
  | primArray ref T notByte text is =>
    have href : drawn = ref := hdrawn abi.general_likePointer
    have hbracket : 91 ∈ (arrayName T).bytes := List.mem_of_mem_head? (arrayName_head T)
    have hbyte : my_strcmp (arrayName T).bytes (ascii "[B") ≠ 0 :=
      fun h => notByte ((my_strcmp_arrayName T).mp h)
    -- the undefined call answers another text
    have hanswer := hline ⟨start, hnamed, some (text ++ [46])⟩
    rw [href, if_neg ref.2, name, objectText_array (primOf_arrayName T) hbracket hbyte,
      arraysToString, is] at hanswer
    have hlength := congrArg List.length (reportLine_inj hanswer)
    rw [List.length_append] at hlength
    exact absurd hlength (Nat.succ_ne_self _)
  | _ => trivial

end Argument

/-! ## The arguments of a call -/

/-- An argument that is passed where a reference would be is drawn, and leaves those behind it. -/
theorem draw_general {argument : Argument world}
    (hlike : abi.likePointer argument.kind = true) {arg : Arg}
    (hpass : argument.Passes abi arg) (start : abi.Start) (rest : List Arg) :
    abi.draw .general (abi.place start (arg :: rest)) =
      (arg.word, abi.place (abi.after start argument.kind) rest) := by
  rw [← abi.draw_likePointer argument.kind hlike, ← hpass.1]
  exact abi.draw_place start arg rest

/-- The types of the arguments, as reflection yields them. -/
abbrev types (arguments : List (Argument world)) : List CString := arguments.map Argument.name

/-- One iteration: the line of the argument, and what the loop over the others writes. -/
theorem argsLoop_cons (junk : ℕ → Junk abi) (i : ℕ) (argument : Argument world)
    (rest : List (Argument world)) (args : abi.VaList) :
    argsLoop abi world junk i (types (argument :: rest)) args =
      getJObjectInfoInternal abi world (junk i) (abi.draw .general args).1 (argsInfo i) true
          (some argument.name) ::
        argsLoop abi world junk (i + 1) (types rest) (abi.draw .general args).2 := rfl

/-- One step for every argument: the loop over good arguments writes their lines. -/
theorem argsLoop_of_good {arguments : List (Argument world)} {args : List Arg}
    (hpass : List.Forall₂ (Argument.Passes abi) arguments args)
    (hgood : ∀ argument ∈ arguments, argument.Good abi) (junk : ℕ → Junk abi)
    (start : abi.Start) (i : ℕ) :
    argsLoop abi world junk i (types arguments) (abi.place start args) =
      reportLines i arguments := by
  induction hpass generalizing start i with
  | nil => rfl
  | @cons argument arg arguments args hpass _ ih =>
    obtain ⟨hhead, hrest⟩ := List.forall_mem_cons.mp hgood
    rw [argsLoop_cons, draw_general hhead.likePointer hpass, reportLines]
    exact congrArg₂ List.cons (hhead.line hpass (junk i) i) (ih hrest _ (i + 1))

/-- There is a way to pass the arguments. -/
theorem exists_passes (arguments : List (Argument world)) :
    ∃ args, List.Forall₂ (Argument.Passes abi) arguments args := by
  induction arguments with
  | nil => exact ⟨[], .nil⟩
  | cons argument rest ih =>
    obtain ⟨args, hargs⟩ := ih
    exact ⟨_, .cons argument.passes_word hargs⟩

/-- Arguments whose lines are always right are good, one after the other: behind a good one, the
loop is in step. -/
theorem good_of_argsLoop {arguments : List (Argument world)} (start : abi.Start) (i : ℕ)
    (h : ∀ args, List.Forall₂ (Argument.Passes abi) arguments args → ∀ junk : ℕ → Junk abi,
      argsLoop abi world junk i (types arguments) (abi.place start args) =
        reportLines i arguments) :
    ∀ argument ∈ arguments, argument.Good abi := by
  induction arguments generalizing start i with
  | nil => exact nofun
  | cons argument rest ih =>
    have hpass : argument.Passes abi ⟨argument.kind, argument.word⟩ := argument.passes_word
    simp only [argsLoop_cons, reportLines, List.cons.injEq] at h
    have hhead : argument.Good abi := by
      obtain ⟨args, hargs⟩ : ∃ args, List.Forall₂ (Argument.Passes abi) rest args :=
        exists_passes rest
      have hline := fun junk => (h _ (.cons hpass hargs) fun _ => junk).1
      refine Argument.good_of_line ?_ hline
      intro hlike
      rw [draw_general hlike hpass]
    refine List.forall_mem_cons.mpr ⟨hhead, ?_⟩
    refine ih (abi.after start argument.kind) (i + 1) ?_
    intro args hargs junk
    have hrest := (h _ (.cons hpass hargs) junk).2
    rw [draw_general hhead.likePointer hpass] at hrest
    exact hrest

/-- The arguments of a call are reported as what they are, however they are passed and whatever the
report finds that nothing specifies. -/
def Reported (abi : Abi) (world : World) (start : abi.Start) (obj jmethodId invokeMethod : ℕ)
    (arguments : List (Argument world)) : Prop :=
  ∀ args, List.Forall₂ (Argument.Passes abi) arguments args → ∀ junk : ℕ → Junk abi,
    (getArgsInfo abi world junk obj jmethodId ⟨invokeMethod, types arguments⟩
      (abi.place start args)).2 =
      reportLines 0 arguments

/-- The arguments of a call are reported as what they are exactly when all of them are good. -/
theorem getArgsInfo_reports_iff (abi : Abi) (world : World) (start : abi.Start) {obj jmethodId : ℕ}
    (hobj : obj ≠ 0) (hid : jmethodId ≠ 0) (invokeMethod : ℕ) (arguments : List (Argument world)) :
    Reported abi world start obj jmethodId invokeMethod arguments ↔
      ∀ argument ∈ arguments, argument.Good abi := by
  have hloop : ∀ args (junk : ℕ → Junk abi),
      (getArgsInfo abi world junk obj jmethodId ⟨invokeMethod, types arguments⟩
        (abi.place start args)).2 =
        argsLoop abi world junk 0 (types arguments) (abi.place start args) := by
    intro args junk
    rw [getArgsInfo, if_neg hobj, if_neg hid]
  simp only [Reported, hloop]
  constructor
  · exact good_of_argsLoop start 0
  · intro hgood args hpass junk
    exact argsLoop_of_good hpass hgood junk start 0

/-- A world with the texts of zero and one. -/
def smallWorld : World where
  floats :=
    { promote := BitVec.toNat
      demote := BitVec.ofNat 32
      demote_promote := fun f _ => ofNat_toNat f
      floatText := fun f => if f = 0x3f800000 then ascii "1.0" else ascii "0.0"
      doubleText := fun d => if d = 0x3ff0000000000000 then ascii "1.0" else ascii "0.0"
      floatText_ne_nil := fun _ => by split_ifs <;> decide +kernel
      doubleText_ne_nil := fun _ => by split_ifs <;> decide +kernel
      floatText_zero := by decide +kernel
      floatText_one := by decide +kernel
      doubleText_zero := by decide +kernel
      doubleText_one := by decide +kernel }
  heap _ := ⟨c_str (ascii "java.lang.Object"), ascii "object", .plain⟩

/-- The registers behind three pointers, everything unspecified being zero. -/
def smallStart : Arm64.Start :=
  ⟨fun | .general => 5 | .floating => 8, fun _ => .const 0, .const 0⟩

/-- On arm64, integers that are not zero are reported, a `long` and a null reference among them. -/
theorem getArgsInfo_reports_integers :
    Reported arm64 smallWorld smallStart 1 1 1
      [.prim .long 7, .prim .int 5, .null (.boxed .int), .prim .char 65] := by
  rw [getArgsInfo_reports_iff arm64 smallWorld smallStart Nat.one_ne_zero Nat.one_ne_zero]
  simp only [List.forall_mem_cons, Argument.Good]
  exact ⟨⟨rfl, by decide⟩, ⟨rfl, by decide⟩, trivial, ⟨rfl, by decide⟩, nofun⟩

/-- On arm64, a `double` between two integers is drawn from the general registers: its text is
that of a floating-point register that was not set, and the integer behind it is lost. -/
theorem getArgsInfo_shifted :
    let arguments : List (Argument smallWorld) :=
      [.prim .int 1, .prim .double 0x3ff0000000000000, .prim .int 2]
    let args : List Arg := [⟨.general, 1⟩, ⟨.floating, 0x3ff0000000000000⟩, ⟨.general, 2⟩]
    let junk : ℕ → Junk arm64 := fun _ => ⟨smallStart, ⟨rfl, rfl⟩, none⟩
    List.Forall₂ (Argument.Passes arm64) arguments args ∧
      (getArgsInfo arm64 smallWorld junk 1 1 ⟨1, types arguments⟩ (arm64.place smallStart args)).2 =
        [some (ascii "args 0   int  1\n"), some (ascii "args 1   double  0.0\n"), none] ∧
      reportLines 0 arguments =
        [some (ascii "args 0   int  1\n"), some (ascii "args 1   double  1.0\n"),
          some (ascii "args 2   int  2\n")] ∧
      ¬ Reported arm64 smallWorld smallStart 1 1 1 arguments := by
  intro arguments args junk
  have hpass : List.Forall₂ (Argument.Passes arm64) arguments args :=
    .cons ⟨rfl, by decide⟩ (.cons ⟨rfl, rfl⟩ (.cons ⟨rfl, by decide⟩ .nil))
  refine ⟨hpass, by decide +kernel, by decide +kernel, ?_⟩
  intro h
  have hlines := h args hpass junk
  revert hlines
  decide +kernel

end XposedJniTrace.JniTrace
