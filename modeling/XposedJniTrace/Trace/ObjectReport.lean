import XposedJniTrace.Trace.ArgsReport

/-!
# Objects are printed with their own value

What `getJObjectInfoInternal` writes for a reference when it is given no class, as for receivers,
results and object fields: it takes the branch of the object's own class, and for a boxed value that
is the branch of the primitive type, whose static `toString` is handed the reference. The text that
Java gives is that of the object's own `toString`, of the decoded bytes, or of the elements.
-/

namespace XposedJniTrace.JniTrace

open Mylibc Java Variadic

/-- An object by its class: a boxed value, an array, or an object of any other class. The objects
that are arrays have a `toString` of their own, which Java does not print. -/
inductive Runtime where
  | boxed (T : Prim) (v : T.Value)
  | byteArray (utf8 toString : Text)
  | primArray (T : Prim) (notByte : T ≠ .byte) (text toString : Text)
  | refArray (array : ArrayName) (text toString : Text)
  | object (plain : ClassName) (toString : Text)

namespace Runtime

/-- The object as it lies on the heap. -/
def obj (floats : Floats) : Runtime → Obj
  | boxed T v => ⟨T.boxName, T.text floats v, .boxed T v⟩
  | byteArray utf8 toString => ⟨arrayName .byte, toString, .byteArray utf8⟩
  | primArray T _ text toString => ⟨arrayName T, toString, .primArray T text⟩
  | refArray array text toString => ⟨array.name, toString, .refArray text⟩
  | object plain toString => ⟨plain.name, toString, .plain⟩

/-- The text that Java gives: `String.valueOf`, the decoded bytes, or `Arrays.toString`. -/
def text (floats : Floats) : Runtime → Text
  | boxed T v => T.text floats v
  | byteArray utf8 _ => utf8
  | primArray _ _ text _ => text
  | refArray _ text _ => text
  | object _ toString => toString

/-- The object is neither an array of primitive values other than bytes nor a boxed value, or its
reference, read at the type that it boxes, happens to be the value. -/
def Good (abi : Abi) (floats : Floats) (ref : ℕ) : Runtime → Prop
  | boxed T v => abi.likePointer T.kind = true ∧ T.read floats ref = v
  | primArray .. => False
  | _ => True

end Runtime

/-- A reference that leads to an object of a class. -/
structure Reference (world : World) where
  ref : Ref
  runtime : Runtime
  is : world.heap ref = runtime.obj world.floats

/-- The line for an object of a class with a text; none for an empty one. -/
def objectLine (message : Text) (isPrintClassinfo : Bool) (classInfo : CString) (ret : Text) :
    Option Text :=
  if ret.length > 0 then
    if isPrintClassinfo then
      some (message ++ ascii "  " ++ classInfo.bytes ++ ascii "  " ++ ret ++ ascii "\n")
    else some (message ++ ascii "  " ++ ret ++ ascii "\n")
  else none

/-- Whatever the report finds that nothing specifies, it writes the text that Java gives. -/
def PrintsOwn (abi : Abi) (world : World) (object : Reference world) : Prop :=
  ∀ (junk : Junk abi) (message : Text) (isPrintClassinfo : Bool),
    getJObjectInfoInternal abi world junk object.ref message isPrintClassinfo none =
      objectLine message isPrintClassinfo (world.heap object.ref).className
        (object.runtime.text world.floats)

/-- For one object, different texts make different lines. -/
theorem objectLine_inj {message : Text} {classInfo : CString} {s t : Text}
    (h : objectLine message false classInfo s = objectLine message false classInfo t) : s = t := by
  have hline (t : Text) : objectLine message false classInfo t =
      if t.length > 0 then some (message ++ ascii "  " ++ t ++ ascii "\n") else none := rfl
  rw [hline, hline] at h
  split_ifs at h with hs ht ht
  · exact List.append_cancel_left (List.append_cancel_right (Option.some.inj h))
  · rw [List.eq_nil_of_length_eq_zero (Nat.eq_zero_of_not_pos hs),
      List.eq_nil_of_length_eq_zero (Nat.eq_zero_of_not_pos ht)]

section Object

variable {abi : Abi} {world : World}

/-- What is written for a reference that is not null is the line of its class's branch. -/
theorem getJObjectInfoInternal_none (junk : Junk abi) (ref : Ref) (message : Text)
    (isPrintClassinfo : Bool) :
    getJObjectInfoInternal abi world junk ref message isPrintClassinfo none =
      (objectText abi world junk ref (world.heap ref).className).bind
        (objectLine message isPrintClassinfo (world.heap ref).className) := by
  simp only [getJObjectInfoInternal, if_neg ref.2, Option.getD_none]
  cases objectText abi world junk ref (world.heap ref).className with
  | none => rfl
  | some ret => rfl

/-- The branch that an object's own class selects gives the text that Java gives. -/
theorem Reference.objectText_of_good (object : Reference world)
    (h : object.runtime.Good abi world.floats object.ref) (junk : Junk abi) :
    objectText abi world junk object.ref (world.heap object.ref).className =
      some (object.runtime.text world.floats) := by
  obtain ⟨ref, runtime, is⟩ := object
  change objectText abi world junk ref (world.heap ref).className = some (runtime.text world.floats)
  rw [is]
  cases runtime with
  | boxed T v =>
    obtain ⟨hlike, hread⟩ := h
    change objectText abi world junk ref T.boxName = _
    rw [objectText_of_primOf (primOf_boxName T), staticToString_of_likePointer hlike, hread]
    rfl
  | byteArray utf8 toString =>
    change objectText abi world junk ref (arrayName .byte) = _
    rw [objectText_byteArray, newString, is]
    rfl
  | primArray => exact h.elim
  | refArray array text toString =>
    have hbracket : 91 ∈ array.name.bytes := List.mem_cons_self
    change objectText abi world junk ref array.name = _
    rw [objectText_array (primOf_array array) hbracket (my_strcmp_array array), arraysToString, is]
    rfl
  | object plain toString =>
    change objectText abi world junk ref plain.name = _
    rw [objectText_object, is]
    rfl

/-- An object whose branch always gives the text that Java gives is good. -/
theorem Reference.good_of_objectText (object : Reference world)
    (h : ∀ junk : Junk abi,
      (objectText abi world junk object.ref (world.heap object.ref).className).bind
          (objectLine [] false (world.heap object.ref).className) =
        objectLine [] false (world.heap object.ref).className (object.runtime.text world.floats)) :
    object.runtime.Good abi world.floats object.ref := by
  obtain ⟨start, hnamed, -⟩ := abi.draw_unspecified .floating abi.floating_likePointer 0 0
  obtain ⟨ref, runtime, is⟩ := object
  change ∀ junk : Junk abi, (objectText abi world junk ref (world.heap ref).className).bind
    (objectLine [] false (world.heap ref).className) =
      objectLine [] false (world.heap ref).className (runtime.text world.floats) at h
  rw [is] at h
  cases runtime with
  | boxed T v =>
    change ∀ junk : Junk abi, (objectText abi world junk ref T.boxName).bind _ = _ at h
    simp only [objectText_of_primOf (primOf_boxName T), Option.bind_some] at h
    have htext : ∀ junk, staticToString abi world junk T ref = T.text world.floats v :=
      fun junk => objectLine_inj (h junk)
    have hlike := likePointer_of_staticToString htext
    have hkind : T.kind ≠ .floating := by
      intro hfloating
      rw [hfloating, abi.floating_likePointer] at hlike
      cases hlike
    have hread := htext ⟨start, hnamed, none⟩
    rw [staticToString_of_likePointer hlike] at hread
    exact ⟨hlike, text_injective hkind hread⟩
  | primArray T notByte text toString =>
    have hbracket : 91 ∈ (arrayName T).bytes := List.mem_of_mem_head? (arrayName_head T)
    have hbyte : my_strcmp (arrayName T).bytes (ascii "[B") ≠ 0 :=
      fun hbyte => notByte ((my_strcmp_arrayName T).mp hbyte)
    -- the undefined call answers another text
    have hanswer := h ⟨start, hnamed, some (text ++ [46])⟩
    change (objectText abi world _ ref (arrayName T)).bind _ = _ at hanswer
    rw [objectText_array (primOf_arrayName T) hbracket hbyte, arraysToString, is] at hanswer
    have hlength := congrArg List.length (objectLine_inj hanswer)
    rw [List.length_append] at hlength
    exact absurd hlength (Nat.succ_ne_self _)
  | _ => trivial

end Object

/-- An object is printed with its own value exactly when it is neither an array of primitive values
other than bytes nor a boxed value whose reference does not read as the value. -/
theorem printsOwn_iff (abi : Abi) (world : World) (object : Reference world) :
    PrintsOwn abi world object ↔ object.runtime.Good abi world.floats object.ref := by
  constructor
  · intro h
    apply object.good_of_objectText
    intro junk
    rw [← getJObjectInfoInternal_none]
    exact h junk [] false
  · intro h junk message isPrintClassinfo
    rw [getJObjectInfoInternal_none, object.objectText_of_good h, Option.bind_some]

/-- A world in which every reference leads to a boxed five. -/
def boxedFive : World :=
  { smallWorld with heap := fun _ => (Runtime.boxed .int 5).obj smallWorld.floats }

/-- The reference 16 to the boxed five. -/
def fiveAtSixteen : Reference boxedFive := ⟨⟨16, by decide⟩, .boxed .int 5, rfl⟩

/-- On arm64, the boxed five at the reference 16 is printed as sixteen. -/
theorem boxed_five_as_sixteen : ¬ PrintsOwn arm64 boxedFive fiveAtSixteen := by
  intro h
  have hprints := h ⟨smallStart, ⟨rfl, rfl⟩, none⟩ [] false
  revert hprints
  decide +kernel

end XposedJniTrace.JniTrace
