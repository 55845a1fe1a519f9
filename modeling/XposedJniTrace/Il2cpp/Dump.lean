import Mathlib.Data.Int.Basic
import XposedJniTrace.Library.LittleEndian
import XposedJniTrace.Library.TextStream
import XposedJniTrace.Trace.Mylibc

/-!
# The texts of `il2cpp/il2cpp_dump.cpp`

`dump_type` with the three loops over the members of a class, and `getMethodInfo`, which the tracer
prints methods with, over what the functions of il2cpp answer for classes, methods, properties and
fields. A class that il2cpp gives for a type is not null; the enumerations end with null.
-/

namespace XposedJniTrace.Il2cppDump

open Mylibc (CString ascii)
open TextStream (Stream atEnd write seekBack)

/-- A `std::stringstream`: its text, and the base in which it prints numbers. -/
structure StringStream where
  stream : Stream UInt8
  base : ℕ

namespace StringStream

/-- A stream at its start. -/
def empty : StringStream := ⟨atEnd [], 10⟩

/-- The text of a stream. -/
def str (out : StringStream) : List UInt8 := out.stream.text

/-- `out << x` of a text. -/
def put (x : List UInt8) (out : StringStream) : StringStream :=
  { out with stream := write x out.stream }

/-- `out << std::hex`. -/
def hex (out : StringStream) : StringStream := { out with base := 16 }

/-- `out << std::dec`. -/
def dec (out : StringStream) : StringStream := { out with base := 10 }

/-- `out << n` of an unsigned number. -/
def num (n : ℕ) (out : StringStream) : StringStream :=
  out.put ((Nat.toDigits out.base n).map fun c => UInt8.ofNat c.toNat)

/-- `out.seekp(-n, out.cur)`. -/
def seekp (n : ℕ) (out : StringStream) : StringStream :=
  { out with stream := seekBack n out.stream }

end StringStream

/-- The bits of the access to a method. -/
def METHOD_ATTRIBUTE_MEMBER_ACCESS_MASK : UInt32 := 0x0007

/-- A private method. -/
def METHOD_ATTRIBUTE_PRIVATE : UInt32 := 0x0001

/-- A method for derived classes of the assembly. -/
def METHOD_ATTRIBUTE_FAM_AND_ASSEM : UInt32 := 0x0002

/-- A method for the assembly. -/
def METHOD_ATTRIBUTE_ASSEM : UInt32 := 0x0003

/-- A method for derived classes. -/
def METHOD_ATTRIBUTE_FAMILY : UInt32 := 0x0004

/-- A method for derived classes and the assembly. -/
def METHOD_ATTRIBUTE_FAM_OR_ASSEM : UInt32 := 0x0005

/-- A public method. -/
def METHOD_ATTRIBUTE_PUBLIC : UInt32 := 0x0006

/-- A static method. -/
def METHOD_ATTRIBUTE_STATIC : UInt32 := 0x0010

/-- A final method. -/
def METHOD_ATTRIBUTE_FINAL : UInt32 := 0x0020

/-- A virtual method. -/
def METHOD_ATTRIBUTE_VIRTUAL : UInt32 := 0x0040

/-- The bit of the layout of the virtual table. -/
def METHOD_ATTRIBUTE_VTABLE_LAYOUT_MASK : UInt32 := 0x0100

/-- A method in a slot that is there. -/
def METHOD_ATTRIBUTE_REUSE_SLOT : UInt32 := 0x0000

/-- A method in a new slot. -/
def METHOD_ATTRIBUTE_NEW_SLOT : UInt32 := 0x0100

/-- An abstract method. -/
def METHOD_ATTRIBUTE_ABSTRACT : UInt32 := 0x0400

/-- A method of a native library. -/
def METHOD_ATTRIBUTE_PINVOKE_IMPL : UInt32 := 0x2000

/-- The bits of the access to a field. -/
def FIELD_ATTRIBUTE_FIELD_ACCESS_MASK : UInt32 := 0x0007

/-- A private field. -/
def FIELD_ATTRIBUTE_PRIVATE : UInt32 := 0x0001

/-- A field for derived classes of the assembly. -/
def FIELD_ATTRIBUTE_FAM_AND_ASSEM : UInt32 := 0x0002

/-- A field for the assembly. -/
def FIELD_ATTRIBUTE_ASSEMBLY : UInt32 := 0x0003

/-- A field for derived classes. -/
def FIELD_ATTRIBUTE_FAMILY : UInt32 := 0x0004

/-- A field for derived classes and the assembly. -/
def FIELD_ATTRIBUTE_FAM_OR_ASSEM : UInt32 := 0x0005

/-- A public field. -/
def FIELD_ATTRIBUTE_PUBLIC : UInt32 := 0x0006

/-- A static field. -/
def FIELD_ATTRIBUTE_STATIC : UInt32 := 0x0010

/-- A field set once. -/
def FIELD_ATTRIBUTE_INIT_ONLY : UInt32 := 0x0020

/-- A field of a constant value. -/
def FIELD_ATTRIBUTE_LITERAL : UInt32 := 0x0040

/-- A parameter that is read. -/
def PARAM_ATTRIBUTE_IN : UInt32 := 0x0001

/-- A parameter that is written. -/
def PARAM_ATTRIBUTE_OUT : UInt32 := 0x0002

/-- The bits of the visibility of a class. -/
def TYPE_ATTRIBUTE_VISIBILITY_MASK : UInt32 := 0x00000007

/-- A class that is not public. -/
def TYPE_ATTRIBUTE_NOT_PUBLIC : UInt32 := 0x00000000

/-- A public class. -/
def TYPE_ATTRIBUTE_PUBLIC : UInt32 := 0x00000001

/-- A nested public class. -/
def TYPE_ATTRIBUTE_NESTED_PUBLIC : UInt32 := 0x00000002

/-- A nested private class. -/
def TYPE_ATTRIBUTE_NESTED_PRIVATE : UInt32 := 0x00000003

/-- A nested class for derived classes. -/
def TYPE_ATTRIBUTE_NESTED_FAMILY : UInt32 := 0x00000004

/-- A nested class for the assembly. -/
def TYPE_ATTRIBUTE_NESTED_ASSEMBLY : UInt32 := 0x00000005

/-- A nested class for derived classes of the assembly. -/
def TYPE_ATTRIBUTE_NESTED_FAM_AND_ASSEM : UInt32 := 0x00000006

/-- A nested class for derived classes and the assembly. -/
def TYPE_ATTRIBUTE_NESTED_FAM_OR_ASSEM : UInt32 := 0x00000007

/-- A class that is an interface. -/
def TYPE_ATTRIBUTE_INTERFACE : UInt32 := 0x00000020

/-- An abstract class. -/
def TYPE_ATTRIBUTE_ABSTRACT : UInt32 := 0x00000080

/-- A class that is sealed. -/
def TYPE_ATTRIBUTE_SEALED : UInt32 := 0x00000100

/-- A class that is serializable. -/
def TYPE_ATTRIBUTE_SERIALIZABLE : UInt32 := 0x00002000

/-- A type, with the name of its class. -/
structure Il2CppType where
  byref : Bool
  attrs : UInt32
  name : CString

/-- A parameter of a method. -/
structure Param where
  type : Il2CppType
  name : CString

/-- A method; its parameters are counted by an `int`. -/
structure MethodInfo where
  methodPointer : UInt64
  flags : UInt32
  return_type : Il2CppType
  name : CString
  params : List Param
  params_lt : params.length < 2 ^ 31

/-- What a property needs of an accessor: the flags, and the type of the value. -/
structure Accessor where
  flags : UInt32
  type : Il2CppType

/-- A property; its name may be null where it has no accessor. -/
structure PropertyInfo where
  get : Option Accessor
  set : Option Accessor
  name : Option CString

/-- A constant of an integer type of so many bytes. -/
structure Constant where
  width : ℕ
  signed : Bool
  value : ℤ
  width_pos : 0 < width
  width_le : width ≤ 8
  in_range : if signed then -(2 ^ (8 * width - 1)) ≤ value ∧ value < 2 ^ (8 * width - 1)
    else 0 ≤ value ∧ value < 2 ^ (8 * width)

/-- The bytes of a constant as they are in memory. -/
def Constant.bytes (c : Constant) : List UInt8 :=
  LittleEndian.encode c.width (c.value % 256 ^ c.width).toNat

/-- A field of a class. -/
structure FieldInfo where
  flags : UInt32
  type : Il2CppType
  name : CString
  /-- What `il2cpp_field_static_get_value` stores. -/
  constant : Constant
  offset : UInt64

/-- A class; of its parent, its name and whether it is `System.Object`. -/
structure Il2CppClass where
  ns : CString
  name : CString
  flags : UInt32
  is_valuetype : Bool
  is_enum : Bool
  parent : Option (CString × Bool)
  interfaces : List CString
  fields : List FieldInfo
  properties : List PropertyInfo
  methods : List MethodInfo

/-- The function `il2cpp_type_is_byref`, which may be missing, and the base of the library. -/
structure Api where
  il2cpp_type_is_byref : Option (Il2CppType → Bool)
  il2cpp_base : UInt64

/-- The switch over an access, which methods and fields share up to the names of its values. -/
def accessText (PRIVATE PUBLIC FAMILY ASSEM FAM_AND_ASSEM FAM_OR_ASSEM access : UInt32) :
    List UInt8 :=
  if access = PRIVATE then ascii "private "
  else if access = PUBLIC then ascii "public "
  else if access = FAMILY then ascii "protected "
  else if access = ASSEM ∨ access = FAM_AND_ASSEM then ascii "internal "
  else if access = FAM_OR_ASSEM then ascii "protected internal "
  else []

/-- The modifiers of a method. -/
def get_method_modifier (flags : UInt32) : List UInt8 :=
  accessText METHOD_ATTRIBUTE_PRIVATE METHOD_ATTRIBUTE_PUBLIC METHOD_ATTRIBUTE_FAMILY
      METHOD_ATTRIBUTE_ASSEM METHOD_ATTRIBUTE_FAM_AND_ASSEM METHOD_ATTRIBUTE_FAM_OR_ASSEM
      (flags &&& METHOD_ATTRIBUTE_MEMBER_ACCESS_MASK) ++
    (if flags &&& METHOD_ATTRIBUTE_STATIC ≠ 0 then ascii "static " else []) ++
    (if flags &&& METHOD_ATTRIBUTE_ABSTRACT ≠ 0 then
      ascii "abstract " ++
        if flags &&& METHOD_ATTRIBUTE_VTABLE_LAYOUT_MASK = METHOD_ATTRIBUTE_REUSE_SLOT then
          ascii "override "
        else []
    else if flags &&& METHOD_ATTRIBUTE_FINAL ≠ 0 then
      if flags &&& METHOD_ATTRIBUTE_VTABLE_LAYOUT_MASK = METHOD_ATTRIBUTE_REUSE_SLOT then
        ascii "sealed override "
      else []
    else if flags &&& METHOD_ATTRIBUTE_VIRTUAL ≠ 0 then
      if flags &&& METHOD_ATTRIBUTE_VTABLE_LAYOUT_MASK = METHOD_ATTRIBUTE_NEW_SLOT then
        ascii "virtual "
      else ascii "override "
    else []) ++
    (if flags &&& METHOD_ATTRIBUTE_PINVOKE_IMPL ≠ 0 then ascii "extern " else [])

/-- Whether a type is a reference, as the interface or the type says. -/
def _il2cpp_type_is_byref (api : Api) (type : Il2CppType) : Bool :=
  match api.il2cpp_type_is_byref with
  | some il2cpp_type_is_byref => il2cpp_type_is_byref type
  | none => type.byref

open StringStream

/-- The body of the loop over the parameters in `dump_method`. -/
def dumpParam (api : Api) (out : StringStream) (param : Param) : StringStream :=
  let attrs := param.type.attrs
  let out :=
    if _il2cpp_type_is_byref api param.type then
      if attrs &&& PARAM_ATTRIBUTE_OUT ≠ 0 ∧ ¬ attrs &&& PARAM_ATTRIBUTE_IN ≠ 0 then
        out.put (ascii "out ")
      else if attrs &&& PARAM_ATTRIBUTE_IN ≠ 0 ∧ ¬ attrs &&& PARAM_ATTRIBUTE_OUT ≠ 0 then
        out.put (ascii "in ")
      else out.put (ascii "ref ")
    else
      let out := if attrs &&& PARAM_ATTRIBUTE_IN ≠ 0 then out.put (ascii "[In] ") else out
      if attrs &&& PARAM_ATTRIBUTE_OUT ≠ 0 then out.put (ascii "[Out] ") else out
  out |>.put param.type.name.bytes |>.put (ascii " ") |>.put param.name.bytes |>.put (ascii ", ")

/-- The body of the loop over the methods in `dump_method`. -/
def dumpMethodInfo (api : Api) (out : StringStream) (method : MethodInfo) : StringStream :=
  let out :=
    if method.methodPointer ≠ 0 then
      out |>.put (ascii "\t// RVA: 0x") |>.hex |>.num (method.methodPointer - api.il2cpp_base).toNat
        |>.put (ascii " VA: 0x") |>.hex |>.num method.methodPointer.toNat
    else out.put (ascii "\t// RVA: 0x VA: 0x0")
  let out := out |>.put (ascii "\n\t") |>.put (get_method_modifier method.flags)
  let out := if _il2cpp_type_is_byref api method.return_type then out.put (ascii "ref ") else out
  let out := out |>.put method.return_type.name.bytes |>.put (ascii " ") |>.put method.name.bytes
    |>.put (ascii "(")
  let out := method.params.foldl (dumpParam api) out
  let out := if method.params.length > 0 then out.seekp 2 else out
  out.put (ascii ") { }\n")

/-- The text of the methods of a class. -/
def dump_method (api : Api) (klass : Il2CppClass) : List UInt8 :=
  (klass.methods.foldl (dumpMethodInfo api) (StringStream.empty.put (ascii "\n\t// Methods\n"))).str

/-- The body of the loop over the properties in `dump_property`. -/
def dumpPropertyInfo (out : StringStream) (prop : PropertyInfo) : StringStream :=
  let out := out.put (ascii "\t")
  match prop.get.or prop.set with
  | some accessor =>
    let out := out |>.put (get_method_modifier accessor.flags) |>.put accessor.type.name.bytes
      |>.put (ascii " ") |>.put ((prop.name.map CString.bytes).getD []) |>.put (ascii " \x7b ")
    let out := if prop.get.isSome then out.put (ascii "get; ") else out
    let out := if prop.set.isSome then out.put (ascii "set; ") else out
    out.put (ascii "\x7d\n")
  | none =>
    match prop.name with
    | some name => out |>.put (ascii " // unknown property ") |>.put name.bytes
    | none => out

/-- The text of the properties of a class. -/
def dump_property (klass : Il2CppClass) : List UInt8 :=
  (klass.properties.foldl dumpPropertyInfo
    (StringStream.empty.put (ascii "\n\t// Properties\n"))).str

/-- The body of the loop over the fields in `dump_field`. -/
def dumpFieldInfo (is_enum : Bool) (out : StringStream) (field : FieldInfo) : StringStream :=
  let attrs := field.flags
  let out := out |>.put (ascii "\t") |>.put
    (accessText FIELD_ATTRIBUTE_PRIVATE FIELD_ATTRIBUTE_PUBLIC FIELD_ATTRIBUTE_FAMILY
      FIELD_ATTRIBUTE_ASSEMBLY FIELD_ATTRIBUTE_FAM_AND_ASSEM FIELD_ATTRIBUTE_FAM_OR_ASSEM
      (attrs &&& FIELD_ATTRIBUTE_FIELD_ACCESS_MASK))
  let out :=
    if attrs &&& FIELD_ATTRIBUTE_LITERAL ≠ 0 then out.put (ascii "const ")
    else
      let out := if attrs &&& FIELD_ATTRIBUTE_STATIC ≠ 0 then out.put (ascii "static ") else out
      if attrs &&& FIELD_ATTRIBUTE_INIT_ONLY ≠ 0 then out.put (ascii "readonly ") else out
  let out := out |>.put field.type.name.bytes |>.put (ascii " ") |>.put field.name.bytes
  let out :=
    if attrs &&& FIELD_ATTRIBUTE_LITERAL ≠ 0 ∧ is_enum then
      out |>.put (ascii " = ") |>.dec |>.num (LittleEndian.overlay 0 field.constant.bytes)
    else out
  out |>.put (ascii "; // 0x") |>.hex |>.num field.offset.toNat |>.put (ascii "\n")

/-- The text of the fields of a class. -/
def dump_field (klass : Il2CppClass) : List UInt8 :=
  (klass.fields.foldl (dumpFieldInfo klass.is_enum)
    (StringStream.empty.put (ascii "\n\t// Fields\n"))).str

/-- What `dump_type` writes for the visibility of a class. -/
def visibilityText (visibility : UInt32) : List UInt8 :=
  if visibility = TYPE_ATTRIBUTE_PUBLIC ∨ visibility = TYPE_ATTRIBUTE_NESTED_PUBLIC then
    ascii "public "
  else if visibility = TYPE_ATTRIBUTE_NOT_PUBLIC ∨
    visibility = TYPE_ATTRIBUTE_NESTED_FAM_AND_ASSEM ∨
      visibility = TYPE_ATTRIBUTE_NESTED_ASSEMBLY then
    ascii "internal "
  else if visibility = TYPE_ATTRIBUTE_NESTED_PRIVATE then ascii "private "
  else if visibility = TYPE_ATTRIBUTE_NESTED_FAMILY then ascii "protected "
  else if visibility = TYPE_ATTRIBUTE_NESTED_FAM_OR_ASSEM then ascii "protected internal "
  else []

/-- What a class extends: its parent, unless that is `System.Object`, and its interfaces. -/
def extendsNames (klass : Il2CppClass) : List CString :=
  (if !klass.is_valuetype && !klass.is_enum then
    match klass.parent with
    | some (name, isObject) => if isObject then [] else [name]
    | none => []
  else []) ++ klass.interfaces

/-- The text of a class. -/
def dump_type (api : Api) (klass : Il2CppClass) : List UInt8 :=
  let flags := klass.flags
  let out := StringStream.empty |>.put (ascii "\n// Namespace: ") |>.put klass.ns.bytes
    |>.put (ascii "\n")
  let out := if flags &&& TYPE_ATTRIBUTE_SERIALIZABLE ≠ 0 then
    out.put (ascii "[Serializable]\n") else out
  let out := out.put (visibilityText (flags &&& TYPE_ATTRIBUTE_VISIBILITY_MASK))
  let out :=
    if flags &&& TYPE_ATTRIBUTE_ABSTRACT ≠ 0 ∧ flags &&& TYPE_ATTRIBUTE_SEALED ≠ 0 then
      out.put (ascii "static ")
    else if ¬ flags &&& TYPE_ATTRIBUTE_INTERFACE ≠ 0 ∧ flags &&& TYPE_ATTRIBUTE_ABSTRACT ≠ 0 then
      out.put (ascii "abstract ")
    else if !klass.is_valuetype ∧ !klass.is_enum ∧ flags &&& TYPE_ATTRIBUTE_SEALED ≠ 0 then
      out.put (ascii "sealed ")
    else out
  let out :=
    if flags &&& TYPE_ATTRIBUTE_INTERFACE ≠ 0 then out.put (ascii "interface ")
    else if klass.is_enum then out.put (ascii "enum ")
    else if klass.is_valuetype then out.put (ascii "struct ")
    else out.put (ascii "class ")
  let out := out.put klass.name.bytes
  let out :=
    match extendsNames klass with
    | [] => out
    | first :: rest =>
      rest.foldl (fun out (name : CString) => out |>.put (ascii ", ") |>.put name.bytes)
        (out |>.put (ascii " : ") |>.put first.bytes)
  let out := out |>.put (ascii "\n\x7b") |>.put (dump_field klass) |>.put (dump_property klass)
    |>.put (dump_method api klass)
  (out.put (ascii "\x7d\n")).str

/-- The body of the loop over the parameters in `getMethodInfo`. -/
def infoParam (api : Api) (out : StringStream) (param : Param) : StringStream :=
  let attrs := param.type.attrs
  let out :=
    if _il2cpp_type_is_byref api param.type then
      if attrs &&& PARAM_ATTRIBUTE_OUT ≠ 0 ∧ ¬ attrs &&& PARAM_ATTRIBUTE_IN ≠ 0 then
        out.put (ascii "out ")
      else if attrs &&& PARAM_ATTRIBUTE_IN ≠ 0 ∧ ¬ attrs &&& PARAM_ATTRIBUTE_OUT ≠ 0 then
        out.put (ascii "in ")
      else out.put (ascii "ref ")
    else
      let out := if attrs &&& PARAM_ATTRIBUTE_IN ≠ 0 then out.put (ascii "[In] ") else out
      if attrs &&& PARAM_ATTRIBUTE_OUT ≠ 0 then out.put (ascii "[Out] ") else out
  out |>.put param.type.name.bytes |>.put (ascii " ") |>.put param.name.bytes |>.put (ascii ", ")

/-- The text of a method for the trace. -/
def getMethodInfo (api : Api) : Option MethodInfo → List UInt8
  | none => []
  | some method =>
    let out := StringStream.empty.put (get_method_modifier method.flags)
    let out := if _il2cpp_type_is_byref api method.return_type then out.put (ascii "ref ") else out
    let out := out |>.put method.return_type.name.bytes |>.put (ascii " ") |>.put method.name.bytes
      |>.put (ascii "(")
    let out := method.params.foldl (infoParam api) out
    let out := if method.params.length > 0 then out.seekp 2 else out
    (out.put (ascii ") { }\n")).str

end XposedJniTrace.Il2cppDump
