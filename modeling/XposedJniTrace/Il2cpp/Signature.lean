import XposedJniTrace.Il2cpp.Dump

/-!
# The signature of a method

The tracer and the dumper each have a copy of the code that writes a method. Both write one
signature, with its parameters joined by separators: the last separator is taken back and
overwritten, and what is written for the methods behind it is put behind its end.
-/

namespace XposedJniTrace.Il2cppDump

open Mylibc (CString ascii)
open TextStream (Stream atEnd write seekBack)

/-- What stands in front of a parameter. -/
def paramPrefix (api : Api) (type : Il2CppType) : List UInt8 :=
  if _il2cpp_type_is_byref api type then
    if type.attrs &&& PARAM_ATTRIBUTE_OUT ≠ 0 ∧
      type.attrs &&& PARAM_ATTRIBUTE_IN = 0 then ascii "out "
    else if type.attrs &&& PARAM_ATTRIBUTE_IN ≠ 0 ∧ type.attrs &&& PARAM_ATTRIBUTE_OUT = 0 then
      ascii "in "
    else ascii "ref "
  else
    (if type.attrs &&& PARAM_ATTRIBUTE_IN ≠ 0 then ascii "[In] " else []) ++
      (if type.attrs &&& PARAM_ATTRIBUTE_OUT ≠ 0 then ascii "[Out] " else [])

/-- The text of a parameter. -/
def paramText (api : Api) (param : Param) : List UInt8 :=
  paramPrefix api param.type ++ param.type.name.bytes ++ ascii " " ++ param.name.bytes

/-- What stands in front of the parameters. -/
def signatureHead (api : Api) (method : MethodInfo) : List UInt8 :=
  get_method_modifier method.flags ++
    (if _il2cpp_type_is_byref api method.return_type then ascii "ref " else []) ++
    method.return_type.name.bytes ++ ascii " " ++ method.name.bytes ++ ascii "("

/-- The signature of a method, and a newline. -/
def signature (api : Api) (method : MethodInfo) : List UInt8 :=
  signatureHead api method ++ (ascii ", ").intercalate (method.params.map (paramText api)) ++
    ascii ") { }\n"

/-- A number in hexadecimal. -/
def hexText (n : ℕ) : List UInt8 := (Nat.toDigits 16 n).map fun c => UInt8.ofNat c.toNat

/-- The line in front of the signature in the dump. -/
def addressLine (api : Api) (method : MethodInfo) : List UInt8 :=
  if method.methodPointer ≠ 0 then
    ascii "\t// RVA: 0x" ++ hexText (method.methodPointer - api.il2cpp_base).toNat ++
      ascii " VA: 0x" ++
      hexText method.methodPointer.toNat
  else ascii "\t// RVA: 0x VA: 0x0"

namespace StringStream

/-- A stream at the end of its text, which prints numbers in a base. -/
def behind (text : List UInt8) (base : ℕ) : StringStream := ⟨atEnd text, base⟩

variable (text x : List UInt8) (base n : ℕ)

/-- The first text of a stream. -/
theorem put_empty : empty.put x = behind x 10 :=
  congrArg (StringStream.mk · 10) (TextStream.write_atEnd x [])

/-- A text behind the others. -/
@[simp] theorem put_behind : (behind text base).put x = behind (text ++ x) base :=
  congrArg (StringStream.mk · base) (TextStream.write_atEnd x text)

/-- The numbers behind are hexadecimal. -/
@[simp] theorem hex_behind : (behind text base).hex = behind text 16 := rfl

/-- The numbers behind are decimal. -/
@[simp] theorem dec_behind : (behind text base).dec = behind text 10 := rfl

/-- A number behind the others. -/
@[simp] theorem num_behind :
    (behind text base).num n =
      behind (text ++ (Nat.toDigits base n).map fun c => UInt8.ofNat c.toNat) base :=
  put_behind text _ base

/-- The text of a stream is what has been put. -/
@[simp] theorem str_behind : (behind text base).str = text := rfl

/-- What is put over a last part that was taken back, and is as long, takes its place. -/
theorem put_seekp {old new : List UInt8} (h : old.length ≤ new.length) :
    ((behind (text ++ old) base).seekp old.length).put new = behind (text ++ new) base :=
  congrArg (StringStream.mk · base) (TextStream.write_seekBack h text)

end StringStream

open StringStream

section Loops

variable (api : Api) (text : List UInt8) (base : ℕ)

/-- One round of the loop over the parameters. -/
theorem dumpParam_behind (param : Param) :
    dumpParam api (behind text base) param =
      behind (text ++ (paramText api param ++ ascii ", ")) base := by
  simp only [dumpParam, paramText, paramPrefix, ne_eq, not_not]
  split_ifs
  all_goals simp only [put_behind, List.append_assoc, List.append_nil, List.nil_append]

/-- The two copies of the loop are one. -/
theorem infoParam_eq : infoParam api = dumpParam api := rfl

/-- The parameters are written one behind the other. -/
theorem params_behind (params : List Param) :
    params.foldl (dumpParam api) (behind text base) =
      behind (text ++ params.flatMap fun param => paramText api param ++ ascii ", ") base := by
  induction params generalizing text with
  | nil => rw [List.foldl_nil, List.flatMap_nil, List.append_nil]
  | cons param params ih =>
    rw [List.foldl_cons, dumpParam_behind, ih, List.flatMap_cons, List.append_assoc]

/-- The parameters, with the last separator taken back and overwritten. -/
theorem closed_behind (params : List Param) :
    (if params.length > 0 then (params.foldl (dumpParam api) (behind text base)).seekp 2
        else params.foldl (dumpParam api) (behind text base)).put (ascii ") { }\n") =
      behind (text ++ (ascii ", ").intercalate (params.map (paramText api)) ++ ascii ") { }\n")
        base := by
  rw [params_behind]
  cases params with
  | nil =>
    rw [if_neg (by decide), put_behind, List.flatMap_nil]
    rfl
  | cons first rest =>
    have hjoined : (first :: rest).flatMap (fun param => paramText api param ++ ascii ", ") =
        (ascii ", ").intercalate ((first :: rest).map (paramText api)) ++ ascii ", " := by
      rw [List.map_cons, ← TextStream.flatMap_separated, ← List.map_cons, List.flatMap_map]
    have hshorter : (ascii ", ").length ≤ (ascii ") { }\n").length := by decide
    have hpos : (first :: rest).length > 0 := Nat.zero_lt_succ _
    rw [if_pos hpos, hjoined, ← List.append_assoc]
    exact put_seekp _ _ hshorter

/-- The line in front of a signature; a number that was printed leaves its base behind. -/
theorem addressLine_behind (method : MethodInfo) :
    ∃ base', (if method.methodPointer ≠ 0 then
        (behind text base) |>.put (ascii "\t// RVA: 0x") |>.hex
          |>.num (method.methodPointer - api.il2cpp_base).toNat |>.put (ascii " VA: 0x") |>.hex
          |>.num method.methodPointer.toNat
      else (behind text base).put (ascii "\t// RVA: 0x VA: 0x0")) =
      behind (text ++ addressLine api method) base' := by
  by_cases h : method.methodPointer ≠ 0
  · refine ⟨16, ?_⟩
    rw [if_pos h, addressLine, if_pos h]
    simp only [put_behind, hex_behind, num_behind, hexText, List.append_assoc]
  · refine ⟨base, ?_⟩
    rw [if_neg h, addressLine, if_neg h, put_behind]

/-- The part in front of the parameters, which both copies write alike. -/
theorem signatureHead_behind (method : MethodInfo) :
    ((if _il2cpp_type_is_byref api method.return_type then
          ((behind text base).put (get_method_modifier method.flags)).put (ascii "ref ")
        else (behind text base).put (get_method_modifier method.flags))
      |>.put method.return_type.name.bytes |>.put (ascii " ") |>.put method.name.bytes
      |>.put (ascii "(")) = behind (text ++ signatureHead api method) base := by
  unfold signatureHead
  split_ifs
  all_goals simp only [put_behind, List.append_assoc, List.nil_append]

/-- One round of the loop over the methods. -/
theorem dumpMethodInfo_behind (method : MethodInfo) :
    ∃ base', dumpMethodInfo api (behind text base) method =
      behind (text ++ (addressLine api method ++ ascii "\n\t" ++ signature api method)) base' := by
  obtain ⟨base', haddress⟩ := addressLine_behind api text base method
  refine ⟨base', ?_⟩
  unfold dumpMethodInfo
  dsimp only
  rw [haddress, put_behind, signatureHead_behind, closed_behind]
  simp only [signature, List.append_assoc]

/-- The whole loop over the methods. -/
theorem methods_behind (methods : List MethodInfo) :
    ∃ base', methods.foldl (dumpMethodInfo api) (behind text base) =
      behind (text ++ methods.flatMap fun method =>
        addressLine api method ++ ascii "\n\t" ++ signature api method) base' := by
  induction methods generalizing text base with
  | nil => exact ⟨base, by rw [List.foldl_nil, List.flatMap_nil, List.append_nil]⟩
  | cons method methods ih =>
    obtain ⟨next, hround⟩ := dumpMethodInfo_behind api text base method
    obtain ⟨base', hrest⟩ :=
      ih (text ++ (addressLine api method ++ ascii "\n\t" ++ signature api method)) next
    refine ⟨base', ?_⟩
    rw [List.foldl_cons, hround, hrest, List.flatMap_cons, List.append_assoc]

end Loops

variable (api : Api)

/-- The tracer's copy. -/
theorem getMethodInfo_eq (method : MethodInfo) :
    getMethodInfo api (some method) = signature api method := by
  have hstart : empty.put (get_method_modifier method.flags) =
      (behind [] 10).put (get_method_modifier method.flags) := rfl
  rw [getMethodInfo, hstart, infoParam_eq, signatureHead_behind, closed_behind]
  simp only [signature, str_behind, List.nil_append]

/-- The dumper's copy. -/
theorem dump_method_eq (klass : Il2CppClass) :
    dump_method api klass = ascii "\n\t// Methods\n" ++ klass.methods.flatMap fun method =>
      addressLine api method ++ ascii "\n\t" ++ signature api method := by
  obtain ⟨base', hloop⟩ := methods_behind api (ascii "\n\t// Methods\n") 10 klass.methods
  rw [dump_method, put_empty, hloop, str_behind]

/--
The tracer prints a method by its signature, and the dumper prints every method of a class by a line
with its addresses and the very same text behind it, with nothing of a separator left and nothing of
what was written earlier lost.
-/
theorem same_signature (klass : Il2CppClass) :
    (∀ method : MethodInfo, getMethodInfo api (some method) =
      get_method_modifier method.flags ++
        (if _il2cpp_type_is_byref api method.return_type then ascii "ref " else []) ++
        method.return_type.name.bytes ++ ascii " " ++ method.name.bytes ++ ascii "(" ++
        (ascii ", ").intercalate (method.params.map fun param =>
          paramPrefix api param.type ++ param.type.name.bytes ++ ascii " " ++ param.name.bytes) ++
        ascii ") { }\n") ∧
      dump_method api klass = ascii "\n\t// Methods\n" ++ klass.methods.flatMap fun method =>
        addressLine api method ++ ascii "\n\t" ++ getMethodInfo api (some method) := by
  constructor
  · intro method
    exact getMethodInfo_eq api method
  · simp only [getMethodInfo_eq]
    exact dump_method_eq api klass

end XposedJniTrace.Il2cppDump
