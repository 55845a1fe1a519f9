import Mathlib.Tactic.Zify
import XposedJniTrace.Il2cpp.Signature
import XposedJniTrace.Library.CodeLines
import XposedJniTrace.Trace.JavaValue

/-!
# Every member declared

The text of a class is read as lines of code: the lines of its head, and between braces one line for
each field, for each property with an accessor and for each method, in this order. A property
without accessor writes a comment and no newline, so it takes the text of the property behind it
into the comment; and the bytes of a constant are printed as an unsigned number, whatever its type
is.
-/

namespace XposedJniTrace.Il2cppDump

open CodeLines
open Mylibc (CString ascii)
open Java (decimal)

/-- Newlines, the slashes of a comment, and spaces and tabs. -/
def marks : Marks UInt8 where
  newline := 0x0a
  mark := 0x2f
  blank b := b = 0x20 ∨ b = 0x09
  newline_ne_mark := by decide

/-- A name that has neither a newline nor a comment in it. -/
def ClearName (name : CString) : Prop := Clear marks name.bytes

instance (name : CString) : Decidable (ClearName name) := inferInstanceAs (Decidable (_ ∧ ¬ _))

/-- The accessor that says what a property is. -/
def PropertyInfo.accessor (prop : PropertyInfo) : Option Accessor := prop.get.or prop.set

/-- A field that is a constant. -/
def FieldInfo.literal (field : FieldInfo) : Prop := field.flags &&& FIELD_ATTRIBUTE_LITERAL ≠ 0

instance (field : FieldInfo) : Decidable field.literal := inferInstanceAs (Decidable (_ ≠ _))

/-- Every name that is written for a class is there and clear. -/
structure ClearNames (klass : Il2CppClass) : Prop where
  ns : ClearName klass.ns
  name : ClearName klass.name
  extended : ∀ name ∈ extendsNames klass, ClearName name
  field : ∀ field ∈ klass.fields, ClearName field.name ∧ ClearName field.type.name
  property : ∀ prop ∈ klass.properties, ∃ name, prop.name = some name ∧ ClearName name
  accessor : ∀ prop ∈ klass.properties, ∀ a ∈ prop.accessor, ClearName a.type.name
  method : ∀ method ∈ klass.methods, ClearName method.name ∧ ClearName method.return_type.name
  param : ∀ method ∈ klass.methods, ∀ param ∈ method.params,
    ClearName param.name ∧ ClearName param.type.name

/-- What stands in front of the type of a field. -/
def fieldModifiers (flags : UInt32) : List UInt8 :=
  accessText FIELD_ATTRIBUTE_PRIVATE FIELD_ATTRIBUTE_PUBLIC FIELD_ATTRIBUTE_FAMILY
      FIELD_ATTRIBUTE_ASSEMBLY FIELD_ATTRIBUTE_FAM_AND_ASSEM FIELD_ATTRIBUTE_FAM_OR_ASSEM
      (flags &&& FIELD_ATTRIBUTE_FIELD_ACCESS_MASK) ++
    (if flags &&& FIELD_ATTRIBUTE_LITERAL ≠ 0 then ascii "const "
    else
      (if flags &&& FIELD_ATTRIBUTE_STATIC ≠ 0 then ascii "static " else []) ++
        if flags &&& FIELD_ATTRIBUTE_INIT_ONLY ≠ 0 then ascii "readonly " else [])

/-- The declaration of a field; a constant of an enum is given a value. -/
def fieldLine (value : FieldInfo → ℤ) (is_enum : Bool) (field : FieldInfo) : List UInt8 :=
  ascii "\t" ++ fieldModifiers field.flags ++ field.type.name.bytes ++ ascii " " ++
    field.name.bytes ++
    (if field.literal ∧ is_enum then ascii " = " ++ decimal (value field) else []) ++ ascii "; "

/-- What stands in front of the accessors of a property, which are in braces. -/
def propertyHead (prop : PropertyInfo) (accessor : Accessor) : List UInt8 :=
  get_method_modifier accessor.flags ++ accessor.type.name.bytes ++ ascii " " ++
    (prop.name.map CString.bytes).getD []

/-- The declaration of a property with an accessor. -/
def propertyLine (prop : PropertyInfo) : List UInt8 :=
  ascii "\t" ++ (prop.accessor.map (propertyHead prop)).getD [] ++ ascii " \x7b " ++
    (if prop.get.isSome then ascii "get; " else []) ++
      (if prop.set.isSome then ascii "set; " else []) ++
    ascii "\x7d"

/-- The declaration of a method. -/
def methodLine (api : Api) (method : MethodInfo) : List UInt8 :=
  ascii "\t" ++ signatureHead api method ++
    (ascii ", ").intercalate (method.params.map (paramText api)) ++
    ascii ") { }"

/-- The words in front of the name of a class. -/
def classModifiers (klass : Il2CppClass) : List UInt8 :=
  visibilityText (klass.flags &&& TYPE_ATTRIBUTE_VISIBILITY_MASK) ++
    (if klass.flags &&& TYPE_ATTRIBUTE_ABSTRACT ≠ 0 ∧ klass.flags &&& TYPE_ATTRIBUTE_SEALED ≠ 0 then
      ascii "static "
    else if ¬ klass.flags &&& TYPE_ATTRIBUTE_INTERFACE ≠ 0 ∧
      klass.flags &&& TYPE_ATTRIBUTE_ABSTRACT ≠ 0 then
      ascii "abstract "
    else if !klass.is_valuetype ∧ !klass.is_enum ∧ klass.flags &&& TYPE_ATTRIBUTE_SEALED ≠ 0 then
      ascii "sealed "
    else []) ++
    (if klass.flags &&& TYPE_ATTRIBUTE_INTERFACE ≠ 0 then ascii "interface "
    else if klass.is_enum then ascii "enum "
    else if klass.is_valuetype then ascii "struct "
    else ascii "class ")

/-- What a class extends, behind its name. -/
def extendsText (klass : Il2CppClass) : List UInt8 :=
  match extendsNames klass with
  | [] => []
  | first :: rest =>
    ascii " : " ++ first.bytes ++ rest.flatMap fun (name : CString) => ascii ", " ++ name.bytes

/-- The lines in front of the opening brace. -/
def headLines (klass : Il2CppClass) : List (List UInt8) :=
  (if klass.flags &&& TYPE_ATTRIBUTE_SERIALIZABLE ≠ 0 then [ascii "[Serializable]"] else []) ++
    [classModifiers klass ++ klass.name.bytes ++ extendsText klass]

/-- The lines of code of the class: its head, and in braces one line for each member. -/
def declared (api : Api) (value : FieldInfo → ℤ) (properties : List PropertyInfo)
    (klass : Il2CppClass) : List (List UInt8) :=
  headLines klass ++ [ascii "\x7b"] ++ klass.fields.map (fieldLine value klass.is_enum) ++
    properties.map propertyLine ++ klass.methods.map (methodLine api) ++ [ascii "\x7d"]

/-- The text of a class declares each field, each property that has an accessor and each method on
one line of code of its own, with the values of the constants of an enum, and nothing else. -/
def DeclaresMembers (api : Api) (klass : Il2CppClass) : Prop :=
  codeLines marks (dump_type api klass) =
    declared api (fun field => field.constant.value)
      (klass.properties.filter fun prop => prop.accessor.isSome) klass

/-- No property without accessor stands directly in front of one that has an accessor. -/
def NoneTaken (properties : List PropertyInfo) : Prop :=
  properties.IsChain fun prop next => prop.accessor.isSome ∨ next.accessor = none

/-- No constant of an enum is negative. -/
def NoneNegative (klass : Il2CppClass) : Prop :=
  klass.is_enum → ∀ field ∈ klass.fields, field.literal → 0 ≤ field.constant.value

/-- The number that is printed for a constant. -/
def printedValue (field : FieldInfo) : ℤ := LittleEndian.overlay 0 field.constant.bytes

/-- The properties that are declared; the one behind a property without accessor is not. -/
def shown : Bool → List PropertyInfo → List PropertyInfo
  | _, [] => []
  | taken, prop :: properties =>
    if prop.accessor.isSome then
      if taken then shown false properties else prop :: shown false properties
    else shown true properties

/-- A property without accessors stands for the ones behind it. -/
theorem shown_of_none {prop : PropertyInfo} (hnone : prop.accessor = none) (taken : Bool)
    (properties : List PropertyInfo) : shown taken (prop :: properties) =
      shown true properties := by
  rw [shown, hnone]
  rfl

/-- A property with accessors is shown, unless one in front has taken its place. -/
theorem shown_of_some {prop : PropertyInfo} {accessor : Accessor}
    (hsome : prop.accessor = some accessor)
    (taken : Bool) (properties : List PropertyInfo) :
    shown taken (prop :: properties) = (if taken then [] else [prop]) ++
      shown false properties := by
  rw [shown, hsome, if_pos (by rfl)]
  cases taken <;> rfl

open StringStream

section Texts

variable (text : List UInt8) (base : ℕ)

/-- The comment behind a field. -/
def offsetText (field : FieldInfo) : List UInt8 := ascii "0x" ++ hexText field.offset.toNat

/-- The line of a field, with its comment and a newline. -/
def fieldText (is_enum : Bool) (field : FieldInfo) : List UInt8 :=
  fieldLine printedValue is_enum field ++ marks.mark :: marks.mark ::
    (ascii " " ++ offsetText field) ++
    [marks.newline]

/-- A number that is not negative has no sign. -/
theorem decimal_natCast (n : ℕ) :
    decimal (n : ℤ) = (Nat.toDigits 10 n).map fun c => UInt8.ofNat c.toNat := by
  rw [decimal, if_neg (Int.natCast_nonneg n).not_gt, List.nil_append, Int.natAbs_natCast]

/-- One round of the loop over the fields. -/
theorem dumpFieldInfo_behind (is_enum : Bool) (field : FieldInfo) :
    dumpFieldInfo is_enum (behind text base) field =
      behind (text ++ fieldText is_enum field) 16 := by
  have hcomment : ascii "; // 0x" = ascii "; " ++
      (marks.mark :: marks.mark :: ascii " ") ++ ascii "0x" :=
    rfl
  have hnewline : ascii "\n" = [marks.newline] := rfl
  unfold dumpFieldInfo
  dsimp only
  rw [hcomment, hnewline]
  simp only [fieldText, fieldLine, fieldModifiers, FieldInfo.literal, printedValue, decimal_natCast,
    offsetText, hexText]
  split_ifs
  all_goals
    simp only [put_behind, dec_behind, hex_behind, num_behind, List.append_assoc, List.cons_append,
      List.nil_append]

/-- The fields are written one behind the other. -/
theorem fields_behind (is_enum : Bool) (fields : List FieldInfo) :
    ∃ base', fields.foldl (dumpFieldInfo is_enum) (behind text base) =
      behind (text ++ fields.flatMap (fieldText is_enum)) base' := by
  induction fields generalizing text base with
  | nil => exact ⟨base, by rw [List.foldl_nil, List.flatMap_nil, List.append_nil]⟩
  | cons field fields ih =>
    obtain ⟨base', hrest⟩ := ih (text ++ fieldText is_enum field) 16
    refine ⟨base', ?_⟩
    rw [List.foldl_cons, dumpFieldInfo_behind, hrest, List.flatMap_cons, List.append_assoc]

/-- The text of the fields. -/
theorem dump_field_eq (klass : Il2CppClass) :
    dump_field klass = ascii "\n\t// Fields\n" ++
      klass.fields.flatMap (fieldText klass.is_enum) := by
  obtain ⟨base', hloop⟩ := fields_behind (ascii "\n\t// Fields\n") 10 klass.is_enum klass.fields
  rw [dump_field, put_empty, hloop, str_behind]

/-- What is written for a property: a line, or a comment without a newline. -/
def propertyText (prop : PropertyInfo) : List UInt8 :=
  if prop.accessor.isSome then propertyLine prop ++ [marks.newline]
  else ascii "\t" ++
    match prop.name with
    | some name =>
      ascii " " ++ marks.mark :: marks.mark :: (ascii " unknown property " ++ name.bytes)
    | none => []

/-- One round of the loop over the properties. -/
theorem dumpPropertyInfo_behind (prop : PropertyInfo) :
    dumpPropertyInfo (behind text base) prop = behind (text ++ propertyText prop) base := by
  have hclose : ascii "\x7d\n" = ascii "\x7d" ++ [marks.newline] := rfl
  have hcomment : ascii " // unknown property " =
      ascii " " ++ marks.mark :: marks.mark :: ascii " unknown property " := rfl
  unfold dumpPropertyInfo
  dsimp only
  rw [hclose, hcomment]
  rcases Option.eq_none_or_eq_some prop.accessor with hnone | ⟨accessor, hsome⟩
  · have hor : prop.get.or prop.set = none := hnone
    have htext : ¬ prop.accessor.isSome := by rw [hnone]; exact Bool.false_ne_true
    simp only [hor]
    rw [propertyText, if_neg htext]
    cases prop.name with
    | some name => simp only [put_behind, List.append_assoc, List.cons_append]
    | none => rw [put_behind, List.append_nil]
  · have hor : prop.get.or prop.set = some accessor := hsome
    have htext : prop.accessor.isSome := by rw [hsome]; rfl
    simp only [hor]
    rw [propertyText, if_pos htext, propertyLine, hsome, Option.map_some,
      Option.getD_some, propertyHead]
    split_ifs
    all_goals simp only [put_behind, List.append_assoc, List.nil_append]

/-- The properties are written one behind the other. -/
theorem properties_behind (properties : List PropertyInfo) :
    properties.foldl dumpPropertyInfo (behind text base) =
      behind (text ++ properties.flatMap propertyText) base := by
  induction properties generalizing text with
  | nil => rw [List.foldl_nil, List.flatMap_nil, List.append_nil]
  | cons prop properties ih =>
    rw [List.foldl_cons, dumpPropertyInfo_behind, ih, List.flatMap_cons, List.append_assoc]

/-- The text of the properties. -/
theorem dump_property_eq (klass : Il2CppClass) :
    dump_property klass = ascii "\n\t// Properties\n" ++ klass.properties.flatMap propertyText := by
  rw [dump_property, put_empty, properties_behind, str_behind]

/-- The parents are written one behind the other. -/
theorem extends_behind (names : List CString) :
    names.foldl (fun out (name : CString) => (out.put (ascii ", ")).put name.bytes)
      (behind text base) =
      behind (text ++ names.flatMap fun (name : CString) => ascii ", " ++ name.bytes) base := by
  induction names generalizing text with
  | nil => rw [List.foldl_nil, List.flatMap_nil, List.append_nil]
  | cons name names ih =>
    rw [List.foldl_cons, put_behind, put_behind, ih, List.flatMap_cons]
    simp only [List.append_assoc]

/-- A text that is put under a condition. -/
theorem put_if (c : Prop) [Decidable c] (x : List UInt8) :
    (if c then behind (text ++ x) base else behind text base) =
      behind (text ++ if c then x else []) base := by
  split_ifs
  · rfl
  · rw [List.append_nil]

/-- One of two texts is written. -/
theorem put_if_else (c : Prop) [Decidable c] (x y : List UInt8) :
    (if c then behind (text ++ x) base else behind (text ++ y) base) =
      behind (text ++ if c then x else y) base := by
  split_ifs
  · rfl
  · rfl

/-- The text in front of the opening brace. -/
def headText (klass : Il2CppClass) : List UInt8 :=
  ascii "\n// Namespace: " ++ klass.ns.bytes ++ ascii "\n" ++
    (if klass.flags &&& TYPE_ATTRIBUTE_SERIALIZABLE ≠ 0 then ascii "[Serializable]\n" else []) ++
    classModifiers klass ++ klass.name.bytes ++ extendsText klass

/-- The text of a class: its head, its fields, its properties and its methods. -/
theorem dump_type_eq (api : Api) (klass : Il2CppClass) :
    dump_type api klass = headText klass ++ ascii "\n\x7b" ++ dump_field klass ++
      dump_property klass ++
      dump_method api klass ++ ascii "\x7d\n" := by
  unfold dump_type headText classModifiers extendsText
  dsimp only
  rw [put_empty]
  cases extendsNames klass with
  | nil =>
    simp only [put_behind, put_if, put_if_else, str_behind]
    simp only [List.append_assoc, List.nil_append]
  | cons first rest =>
    simp only [put_behind, put_if, put_if_else, extends_behind, str_behind]
    simp only [List.append_assoc]

end Texts

section Words

/-- What has neither a newline nor a slash in it is plain. -/
theorem plain_accessText (PRIVATE PUBLIC FAMILY ASSEM FAM_AND_ASSEM FAM_OR_ASSEM access : UInt32) :
    Plain marks (accessText PRIVATE PUBLIC FAMILY ASSEM FAM_AND_ASSEM FAM_OR_ASSEM access) := by
  unfold accessText
  split_ifs
  all_goals exact plain_of_not_mem (by decide) (by decide)

/-- The modifiers of a method are plain. -/
theorem plain_method_modifier (flags : UInt32) : Plain marks (get_method_modifier flags) := by
  unfold get_method_modifier
  refine (((plain_accessText _ _ _ _ _ _ _).append ?_).append ?_).append ?_
  all_goals
    split_ifs
    all_goals exact plain_of_not_mem (by decide) (by decide)

/-- The modifiers of a field are plain. -/
theorem plain_fieldModifiers (flags : UInt32) : Plain marks (fieldModifiers flags) := by
  unfold fieldModifiers
  refine (plain_accessText _ _ _ _ _ _ _).append ?_
  split_ifs
  all_goals exact plain_of_not_mem (by decide) (by decide)

/-- What stands in front of a parameter is plain. -/
theorem plain_paramPrefix (api : Api) (type : Il2CppType) : Plain marks (paramPrefix api type) := by
  unfold paramPrefix
  split_ifs
  all_goals exact plain_of_not_mem (by decide) (by decide)

/-- The modifiers of a class are plain. -/
theorem plain_classModifiers (klass : Il2CppClass) : Plain marks (classModifiers klass) := by
  unfold classModifiers
  refine ((?_ : Plain marks _).append ?_).append ?_
  · unfold visibilityText
    split_ifs
    all_goals exact plain_of_not_mem (by decide) (by decide)
  · split_ifs
    all_goals exact plain_of_not_mem (by decide) (by decide)
  · split_ifs
    all_goals exact plain_of_not_mem (by decide) (by decide)

/-- A name with a word behind it that does not begin with a slash. -/
theorem plain_name {name : CString} (h : ClearName name) {word : List UInt8}
    (hword : Plain marks word)
    (hhead : ∃ a rest, word = a :: rest ∧ a ≠ marks.mark) : Plain marks (name.bytes ++ word) := by
  obtain ⟨a, rest, rfl, ha⟩ := hhead
  exact h.append_plain ha hword

/-- A type and the space behind it. -/
theorem plain_name_space {name : CString} (h : ClearName name) :
    Plain marks (name.bytes ++ ascii " ") :=
  plain_name h (plain_of_not_mem (by decide) (by decide)) ⟨_, _, rfl, by decide⟩

/-- A decimal number is plain. -/
theorem plain_decimal (n : ℤ) : Plain marks (decimal n) := by
  have hbyte : ∀ b ∈ decimal n, b ≠ marks.newline ∧ b ≠ marks.mark := by
    intro b hb
    rcases List.mem_append.mp hb with hsign | hdigit
    · split_ifs at hsign
      · obtain rfl := List.mem_singleton.mp hsign
        decide
      · cases hsign
    · obtain ⟨c, hc, rfl⟩ := List.mem_map.mp hdigit
      obtain ⟨hge, hle⟩ := Java.byte_of_digit hc
      have hall : ∀ k : Fin 58, 48 ≤ k.val →
          UInt8.ofNat k.val ≠ marks.newline ∧ UInt8.ofNat k.val ≠ marks.mark := by decide
      exact hall ⟨c.toNat, by omega⟩ hge
  exact plain_of_not_mem (fun h => (hbyte _ h).1 rfl) fun h => (hbyte _ h).2 rfl

/-- There is no newline in a hexadecimal number. -/
theorem newline_not_mem_hexText (n : ℕ) : marks.newline ∉ hexText n := by
  have hdigit : ∀ d : Fin 16, UInt8.ofNat (Nat.digitChar d.val).toNat ≠ marks.newline := by decide
  induction n using Nat.strong_induction_on with
  | _ n ih =>
    rw [hexText, Nat.toDigits_eq_if (by decide)]
    split_ifs with hlt
    · rw [List.map_singleton, List.mem_singleton]
      exact (hdigit ⟨n, hlt⟩).symm
    · rw [List.map_append, List.mem_append, not_or]
      refine ⟨ih _ (by omega), ?_⟩
      rw [List.map_singleton, List.mem_singleton]
      exact (hdigit ⟨n % 16, Nat.mod_lt _ (by decide)⟩).symm

end Words

section Members

variable {klass : Il2CppClass}

/-- The line of a field is plain. -/
theorem plain_fieldLine (hnames : ClearNames klass) (value : FieldInfo → ℤ) (is_enum : Bool)
    {field : FieldInfo} (hfield : field ∈ klass.fields) :
      Plain marks (fieldLine value is_enum field) := by
  obtain ⟨hname, htype⟩ := hnames.field field hfield
  have htab : Plain marks (ascii "\t") := plain_of_not_mem (by decide) (by decide)
  have hclose : Plain marks (ascii "; ") := plain_of_not_mem (by decide) (by decide)
  have hequals : Plain marks (ascii " = ") := plain_of_not_mem (by decide) (by decide)
  have hfront := (htab.append (plain_fieldModifiers field.flags)).append (plain_name_space htype)
  unfold fieldLine
  split_ifs
  · have hrest := plain_name hname ((hequals.append (plain_decimal (value field))).append hclose)
      ⟨_, _, rfl, by decide⟩
    have h := hfront.append hrest
    simpa only [List.append_assoc] using h
  · have h := hfront.append (plain_name hname hclose ⟨_, _, rfl, by decide⟩)
    simpa only [List.append_assoc, List.nil_append] using h

/-- The line of a property is plain. -/
theorem plain_propertyLine (hnames : ClearNames klass) {prop : PropertyInfo}
    (hprop : prop ∈ klass.properties) {accessor : Accessor}
    (haccessor : prop.accessor = some accessor) :
    Plain marks (propertyLine prop) := by
  obtain ⟨name, hname, hclear⟩ := hnames.property prop hprop
  have htype := hnames.accessor prop hprop accessor haccessor
  have htab : Plain marks (ascii "\t") := plain_of_not_mem (by decide) (by decide)
  have hbrace : Plain marks (ascii " \x7b ") := plain_of_not_mem (by decide) (by decide)
  have hget : Plain marks (if prop.get.isSome then ascii "get; " else []) := by
    split_ifs
    all_goals exact plain_of_not_mem (by decide) (by decide)
  have hset : Plain marks (if prop.set.isSome then ascii "set; " else []) := by
    split_ifs
    all_goals exact plain_of_not_mem (by decide) (by decide)
  have hclose : Plain marks (ascii "\x7d") := plain_of_not_mem (by decide) (by decide)
  have hhead := (htab.append (plain_method_modifier accessor.flags)).append (plain_name_space htype)
  have h := (((hhead.append (plain_name hclear hbrace ⟨_, _, rfl, by decide⟩)).append hget).append
    hset).append hclose
  rw [propertyLine, haccessor, Option.map_some, Option.getD_some, propertyHead, hname,
    Option.map_some, Option.getD_some]
  simpa only [List.append_assoc] using h

/-- The head of a signature is plain. -/
theorem plain_signatureHead (api : Api) (hnames : ClearNames klass) {method : MethodInfo}
    (hmethod : method ∈ klass.methods) : Plain marks (signatureHead api method) := by
  obtain ⟨hname, htype⟩ := hnames.method method hmethod
  have href : Plain marks (if _il2cpp_type_is_byref api method.return_type then ascii "ref "
      else []) := by
    split_ifs
    all_goals exact plain_of_not_mem (by decide) (by decide)
  have hopen : Plain marks (ascii "(") := plain_of_not_mem (by decide) (by decide)
  have h :=
    (((plain_method_modifier method.flags).append href).append (plain_name_space htype)).append
    (plain_name hname hopen ⟨_, _, rfl, by decide⟩)
  unfold signatureHead
  simpa only [List.append_assoc] using h

/-- A parameter, with a word behind its name. -/
theorem plain_paramText (api : Api) {param : Param} (hname : ClearName param.name)
    (htype : ClearName param.type.name)
    {word : List UInt8} (hword : Plain marks word)
    (hhead : ∃ a rest, word = a :: rest ∧ a ≠ marks.mark) :
    Plain marks (paramText api param ++ word) := by
  have h := ((plain_paramPrefix api param.type).append (plain_name_space htype)).append
    (plain_name hname hword hhead)
  unfold paramText
  simpa only [List.append_assoc] using h

/-- The parameters are plain. -/
theorem plain_params (api : Api) {params : List Param}
    (hparams : ∀ param ∈ params, ClearName param.name ∧ ClearName param.type.name) :
    Plain marks ((ascii ", ").intercalate (params.map (paramText api)) ++ ascii ") { }") := by
  have hclose : Plain marks (ascii ") { }") := plain_of_not_mem (by decide) (by decide)
  induction params with
  | nil => exact hclose
  | cons param params ih =>
    obtain ⟨hname, htype⟩ := hparams param List.mem_cons_self
    have hrest := ih fun p hp => hparams p (List.mem_cons_of_mem _ hp)
    cases params with
    | nil =>
      rw [List.map_singleton, List.intercalate_singleton]
      exact plain_paramText api hname htype hclose ⟨_, _, rfl, by decide⟩
    | cons next params =>
      have hcomma : Plain marks (ascii ", ") := plain_of_not_mem (by decide) (by decide)
      have h := (plain_paramText api hname htype hcomma ⟨_, _, rfl, by decide⟩).append hrest
      rw [List.map_cons, List.map_cons, List.intercalate_cons_cons, ← List.map_cons]
      simpa only [List.append_assoc] using h

/-- The line of a method is plain. -/
theorem plain_methodLine (api : Api) (hnames : ClearNames klass) {method : MethodInfo}
    (hmethod : method ∈ klass.methods) : Plain marks (methodLine api method) := by
  have htab : Plain marks (ascii "\t") := plain_of_not_mem (by decide) (by decide)
  have h := (htab.append (plain_signatureHead api hnames hmethod)).append
    (plain_params api (hnames.param method hmethod))
  unfold methodLine
  simpa only [List.append_assoc] using h

end Members

section Lines

variable {klass : Il2CppClass}

/-- Of the lines of the fields those of code are the declarations. -/
theorem codeLines_fields (hnames : ClearNames klass) (is_enum : Bool) {fields : List FieldInfo}
    (hfields : ∀ field ∈ fields, field ∈ klass.fields) (tail : List UInt8) :
    codeLines marks (fields.flatMap (fieldText is_enum) ++ tail) =
      fields.map (fieldLine printedValue is_enum) ++ codeLines marks tail := by
  induction fields with
  | nil => rfl
  | cons field fields ih =>
    have hplain := plain_fieldLine hnames printedValue is_enum (hfields field List.mem_cons_self)
    have hcomment : marks.newline ∉ ascii " " ++ offsetText field := by
      rw [offsetText, List.mem_append, List.mem_append, not_or, not_or]
      exact ⟨by decide, by decide, newline_not_mem_hexText _⟩
    have hvisible : visible marks (fieldLine printedValue is_enum field) := by
      have hclose : visible marks (ascii "; ") = true := by decide
      rw [fieldLine, visible_append, hclose, Bool.or_true]
    have hsplit : (field :: fields).flatMap (fieldText is_enum) ++ tail =
        (fieldLine printedValue is_enum field ++
          marks.mark :: marks.mark :: (ascii " " ++ offsetText field)) ++
          marks.newline :: (fields.flatMap (fieldText is_enum) ++ tail) := by
      rw [List.flatMap_cons, fieldText]
      simp only [List.append_assoc, List.cons_append, List.nil_append]
    rw [hsplit, codeLines_append_newline, hplain.codeLines_comment hcomment, if_pos hvisible,
      ih fun f hf => hfields f (List.mem_cons_of_mem _ hf)]
    rfl

/-- The line in front of a method is a comment. -/
theorem codeLines_addressLine (api : Api) (method : MethodInfo) :
    codeLines marks (addressLine api method) = [] := by
  have htab : Plain marks (ascii "\t") := plain_of_not_mem (by decide) (by decide)
  have hblank : ¬ visible marks (ascii "\t") := by decide
  have hopen : ascii "\t// RVA: 0x" = ascii "\t" ++ marks.mark :: marks.mark ::
      ascii " RVA: 0x" := rfl
  have hnull : ascii "\t// RVA: 0x VA: 0x0" =
      ascii "\t" ++ marks.mark :: marks.mark :: ascii " RVA: 0x VA: 0x0" := rfl
  unfold addressLine
  split_ifs
  · have hcomment : marks.newline ∉ ascii " RVA: 0x" ++
        (hexText (method.methodPointer - api.il2cpp_base).toNat ++ (ascii " VA: 0x" ++
          hexText method.methodPointer.toNat)) := by
      simp only [List.mem_append, not_or]
      exact ⟨by decide, newline_not_mem_hexText _, by decide, newline_not_mem_hexText _⟩
    have h := htab.codeLines_comment hcomment
    rw [if_neg hblank] at h
    rw [hopen]
    simpa only [List.append_assoc, List.cons_append] using h
  · rw [hnull, htab.codeLines_comment (by decide), if_neg hblank]

/-- Of the lines of the methods those of code are the declarations. -/
theorem codeLines_methods (api : Api) (hnames : ClearNames klass) {methods : List MethodInfo}
    (hmethods : ∀ method ∈ methods, method ∈ klass.methods) (tail : List UInt8) :
    codeLines marks ((methods.flatMap fun method =>
        addressLine api method ++ ascii "\n\t" ++ signature api method) ++ tail) =
      methods.map (methodLine api) ++ codeLines marks tail := by
  induction methods with
  | nil => rfl
  | cons method methods ih =>
    have hplain := plain_methodLine api hnames (hmethods method List.mem_cons_self)
    have hvisible : visible marks (methodLine api method) := by
      have hclose : visible marks (ascii ") { }") = true := by decide
      rw [methodLine, visible_append, hclose, Bool.or_true]
    have hsplit : ((method :: methods).flatMap fun method =>
          addressLine api method ++ ascii "\n\t" ++ signature api method) ++ tail =
        addressLine api method ++ marks.newline :: (methodLine api method ++
          marks.newline :: ((methods.flatMap fun method =>
            addressLine api method ++ ascii "\n\t" ++ signature api method) ++ tail)) := by
      have hopen : ascii "\n\t" = marks.newline :: ascii "\t" := rfl
      have hclose : ascii ") { }\n" = ascii ") { }" ++ [marks.newline] := rfl
      rw [List.flatMap_cons, hopen, signature, hclose, methodLine]
      simp only [List.append_assoc, List.cons_append, List.nil_append]
    rw [hsplit, codeLines_append_newline, codeLines_append_newline, codeLines_addressLine,
      hplain.codeLines_eq hvisible, ih fun f hf => hmethods f (List.mem_cons_of_mem _ hf)]
    rfl

/-- What was written for properties without accessor since the last newline. -/
inductive Pending : Bool → List UInt8 → Prop where
  | nothing : Pending false []
  | comment {x y : List UInt8} (plain : Plain marks x) (blank : visible marks x = false)
      (newline : marks.newline ∉ y) : Pending true (x ++ marks.mark :: marks.mark :: y)

/-- A property without accessor adds to the comment, or begins it. -/
theorem Pending.unknown {taken : Bool} {x : List UInt8} (hx : Pending taken x) {prop : PropertyInfo}
    (haccessor : prop.accessor = none) {name : CString} (hname : prop.name = some name)
    (hclear : ClearName name) : Pending true (x ++ propertyText prop) := by
  have htext : propertyText prop = (ascii "\t" ++ ascii " ") ++
      marks.mark :: marks.mark :: (ascii " unknown property " ++ name.bytes) := by
    have hnone : ¬ prop.accessor.isSome := by rw [haccessor]; exact Bool.false_ne_true
    rw [propertyText, if_neg hnone, hname, List.append_assoc]
  have hcomment : marks.newline ∉ ascii " unknown property " ++ name.bytes := by
    rw [List.mem_append, not_or]
    exact ⟨by decide, hclear.1⟩
  have hblank : Plain marks (ascii "\t" ++ ascii " ") := plain_of_not_mem (by decide) (by decide)
  rw [htext]
  cases hx with
  | nothing => exact .comment hblank (by decide) hcomment
  | comment hplain hvisible hnewline =>
    rw [List.append_assoc, List.cons_append, List.cons_append]
    refine .comment hplain hvisible ?_
    rw [List.mem_append, not_or]
    exact ⟨hnewline, hblank.newline_not_mem_comment hcomment⟩

/-- Of a property with an accessor the line is code, unless it stands in a comment. -/
theorem Pending.known (hnames : ClearNames klass) {taken : Bool} {x : List UInt8}
    (hx : Pending taken x)
    {prop : PropertyInfo} (hprop : prop ∈ klass.properties) {accessor : Accessor}
    (haccessor : prop.accessor = some accessor) :
    codeLines marks (x ++ propertyLine prop) = if taken then [] else [propertyLine prop] := by
  have hplain := plain_propertyLine hnames hprop haccessor
  cases hx with
  | nothing =>
    have hvisible : visible marks (propertyLine prop) := by
      have hclose : visible marks (ascii "\x7d") = true := by decide
      rw [propertyLine, visible_append, hclose, Bool.or_true]
    exact hplain.codeLines_eq hvisible
  | @comment z y hcomment hblank hnewline =>
    have hrest : marks.newline ∉ y ++ propertyLine prop := by
      rw [List.mem_append, not_or]
      exact ⟨hnewline, hplain.1⟩
    rw [List.append_assoc, List.cons_append, List.cons_append,
      hcomment.codeLines_comment hrest, hblank]
    rfl

/-- Of the lines of the properties those of code are the declarations that are not taken into a
comment. -/
theorem codeLines_properties (hnames : ClearNames klass) {properties : List PropertyInfo}
    (hproperties : ∀ prop ∈ properties, prop ∈ klass.properties) {taken : Bool} {x : List UInt8}
    (hx : Pending taken x) (tail : List UInt8) :
    codeLines marks (x ++ properties.flatMap propertyText ++ marks.newline :: tail) =
      (shown taken properties).map propertyLine ++ codeLines marks tail := by
  induction properties generalizing taken x with
  | nil =>
    rw [List.flatMap_nil, List.append_nil, codeLines_append_newline]
    cases hx with
    | nothing => rfl
    | comment hplain hblank hnewline =>
      rw [hplain.codeLines_comment hnewline, hblank]
      rfl
  | cons prop properties ih =>
    have hprop := hproperties prop List.mem_cons_self
    have hrest : ∀ p ∈ properties, p ∈ klass.properties := fun p hp =>
      hproperties p (List.mem_cons_of_mem _ hp)
    rcases Option.eq_none_or_eq_some prop.accessor with hnone | ⟨accessor, hsome⟩
    · obtain ⟨name, hname, hclear⟩ := hnames.property prop hprop
      rw [List.flatMap_cons, ← List.append_assoc, ih hrest (hx.unknown hnone hname hclear),
        shown_of_none hnone]
    · have hshown : (shown taken (prop :: properties)).map propertyLine =
          (if taken then [] else [propertyLine prop]) ++
            (shown false properties).map propertyLine := by
        rw [shown_of_some hsome, List.map_append]
        cases taken <;> rfl
      have htext : x ++ (prop :: properties).flatMap propertyText ++ marks.newline :: tail =
          (x ++ propertyLine prop) ++
            marks.newline :: ([] ++ properties.flatMap propertyText ++ marks.newline :: tail) := by
        have hline : prop.accessor.isSome := by rw [hsome]; rfl
        rw [List.flatMap_cons, propertyText, if_pos hline]
        simp only [List.append_assoc, List.cons_append, List.nil_append]
      rw [htext, codeLines_append_newline, hx.known hnames hprop hsome, ih hrest .nothing, hshown,
        List.append_assoc]

/-- The names that a class extends end its line. -/
theorem codeLines_extends {x : List UInt8} (hx : Plain marks x) (hvisible : visible marks x)
    {first : CString} (hfirst : ClearName first) {rest : List CString}
    (hrest : ∀ name ∈ rest, ClearName name) :
    codeLines marks
      (x ++ (first.bytes ++ rest.flatMap fun (name : CString) => ascii ", " ++ name.bytes)) =
      [x ++ (first.bytes ++ rest.flatMap fun (name : CString) => ascii ", " ++ name.bytes)] := by
  induction rest generalizing x first with
  | nil =>
    rw [List.flatMap_nil, List.append_nil]
    exact hx.codeLines_append hfirst hvisible
  | cons next rest ih =>
    have hcomma : Plain marks (ascii ", ") := plain_of_not_mem (by decide) (by decide)
    have hplain := hx.append (plain_name hfirst hcomma ⟨_, _, rfl, by decide⟩)
    have hseen : visible marks (x ++ (first.bytes ++ ascii ", ")) := by
      rw [visible_append, hvisible, Bool.true_or]
    have h := ih hplain hseen (hrest next List.mem_cons_self) fun name hname =>
      hrest name (List.mem_cons_of_mem _ hname)
    rw [List.flatMap_cons]
    simpa only [List.append_assoc] using h

/-- The line of a class is a line of code. -/
theorem codeLines_classLine (hnames : ClearNames klass) :
    codeLines marks (classModifiers klass ++ klass.name.bytes ++ extendsText klass) =
      [classModifiers klass ++ klass.name.bytes ++ extendsText klass] := by
  have hplain := plain_classModifiers klass
  have hvisible : visible marks (classModifiers klass) := by
    rw [classModifiers, visible_append]
    split_ifs
    all_goals exact Bool.or_eq_true_iff.mpr (.inr (by decide))
  have hextended := hnames.extended
  unfold extendsText
  cases hnames' : extendsNames klass with
  | nil =>
    rw [List.append_nil]
    exact hplain.codeLines_append hnames.name hvisible
  | cons first rest =>
    rw [hnames'] at hextended
    have hcolon : Plain marks (ascii " : ") := plain_of_not_mem (by decide) (by decide)
    have hfront := hplain.append (plain_name hnames.name hcolon ⟨_, _, rfl, by decide⟩)
    have hseen : visible marks (classModifiers klass ++ (klass.name.bytes ++ ascii " : ")) := by
      rw [visible_append, hvisible, Bool.true_or]
    have h := codeLines_extends hfront hseen (hextended first List.mem_cons_self) fun name hname =>
      hextended name (List.mem_cons_of_mem _ hname)
    simpa only [List.append_assoc] using h

/-- The lines of code of the head. -/
theorem codeLines_headText (hnames : ClearNames klass) :
    codeLines marks (headText klass) = headLines klass := by
  have hspace : ascii "\n// Namespace: " =
      marks.newline :: marks.mark :: marks.mark :: ascii " Namespace: " := rfl
  have hnewline : ascii "\n" = [marks.newline] := rfl
  have hcomment : marks.newline ∉ ascii " Namespace: " ++ klass.ns.bytes := by
    rw [List.mem_append, not_or]
    exact ⟨by decide, hnames.ns.1⟩
  have hfirst := plain_nil.codeLines_comment hcomment
  rw [if_neg (by decide)] at hfirst
  have hsplit : headText klass =
      [] ++ marks.newline ::
        ([] ++ marks.mark :: marks.mark :: (ascii " Namespace: " ++ klass.ns.bytes) ++
        marks.newline ::
          ((if klass.flags &&& TYPE_ATTRIBUTE_SERIALIZABLE ≠ 0 then
            ascii "[Serializable]\n" else []) ++
            (classModifiers klass ++ klass.name.bytes ++ extendsText klass))) := by
    rw [headText, hspace, hnewline]
    simp only [List.append_assoc, List.cons_append, List.nil_append]
  rw [hsplit, codeLines_append_newline, codeLines_append_newline, hfirst, codeLines_nil, headLines]
  split_ifs
  · have hplain : Plain marks (ascii "[Serializable]") := plain_of_not_mem (by decide) (by decide)
    have hserializable (rest : List UInt8) :
        ascii "[Serializable]\n" ++ rest = ascii "[Serializable]" ++ marks.newline :: rest := rfl
    rw [hserializable, codeLines_append_newline,
      hplain.codeLines_eq (by decide), codeLines_classLine hnames]
    rfl
  · simp only [List.nil_append, codeLines_classLine hnames]

/-- The lines of code of the text of a class. -/
theorem codeLines_dump_type (api : Api) (hnames : ClearNames klass) :
    codeLines marks (dump_type api klass) =
      declared api printedValue (shown false klass.properties) klass := by
  have htitle {title : List UInt8} (htitle : marks.newline ∉ title) :
      codeLines marks (ascii "\t" ++ marks.mark :: marks.mark :: title) = [] := by
    have htab : Plain marks (ascii "\t") := plain_of_not_mem (by decide) (by decide)
    have hblank : ¬ visible marks (ascii "\t") := by decide
    rw [htab.codeLines_comment htitle, if_neg hblank]
  have hopen : Plain marks (ascii "\x7b") := plain_of_not_mem (by decide) (by decide)
  have hclose : Plain marks (ascii "\x7d") := plain_of_not_mem (by decide) (by decide)
  have hsplit : dump_type api klass = headText klass ++ marks.newline :: (ascii "\x7b" ++
      marks.newline :: (ascii "\t" ++ marks.mark :: marks.mark :: ascii " Fields" ++
        marks.newline :: (klass.fields.flatMap (fieldText klass.is_enum) ++ ([] ++
          marks.newline :: (ascii "\t" ++ marks.mark :: marks.mark :: ascii " Properties" ++
            marks.newline :: ([] ++ klass.properties.flatMap propertyText ++
              marks.newline :: (ascii "\t" ++ marks.mark :: marks.mark :: ascii " Methods" ++
                marks.newline :: ((klass.methods.flatMap fun method =>
                    addressLine api method ++ ascii "\n\t" ++ signature api method) ++
                  (ascii "\x7d" ++ marks.newline :: []))))))))) := by
    have hfields : ascii "\n\t// Fields\n" = marks.newline :: (ascii "\t" ++
        marks.mark :: marks.mark :: (ascii " Fields" ++ [marks.newline])) := rfl
    have hproperties : ascii "\n\t// Properties\n" = marks.newline :: (ascii "\t" ++
        marks.mark :: marks.mark :: (ascii " Properties" ++ [marks.newline])) := rfl
    have hmethods : ascii "\n\t// Methods\n" = marks.newline :: (ascii "\t" ++
        marks.mark :: marks.mark :: (ascii " Methods" ++ [marks.newline])) := rfl
    have hbrace : ascii "\n\x7b" = marks.newline :: ascii "\x7b" := rfl
    have hend : ascii "\x7d\n" = ascii "\x7d" ++ [marks.newline] := rfl
    rw [dump_type_eq, dump_field_eq, dump_property_eq, dump_method_eq, hfields,
      hproperties, hmethods, hbrace, hend]
    simp only [List.append_assoc, List.cons_append, List.nil_append]
  rw [hsplit, codeLines_append_newline, codeLines_headText hnames, codeLines_append_newline,
    hopen.codeLines_eq (by decide), codeLines_append_newline, htitle (by decide),
    codeLines_fields hnames klass.is_enum fun _ h => h, codeLines_append_newline, codeLines_nil,
    codeLines_append_newline, htitle (by decide),
      codeLines_properties hnames (fun _ h => h) .nothing,
    codeLines_append_newline, htitle (by decide), codeLines_methods api hnames fun _ h => h,
    codeLines_append_newline, hclose.codeLines_eq (by decide), codeLines_nil, declared]
  simp only [List.append_assoc, List.nil_append, List.append_nil]

end Lines

section Exact

/-- No property is declared but those with an accessor, each in its place. -/
theorem shown_sublist (taken : Bool) (properties : List PropertyInfo) :
    (shown taken properties).Sublist (properties.filter fun prop => prop.accessor.isSome) := by
  induction properties generalizing taken with
  | nil => exact List.Sublist.refl _
  | cons prop properties ih =>
    rw [shown, List.filter_cons]
    split_ifs
    · exact (ih false).cons _
    · exact (ih false).cons_cons _
    · exact ih true

/-- All properties with accessors are shown exactly when none is taken. -/
theorem shown_eq_iff (taken : Bool) (properties : List PropertyInfo) :
    shown taken properties = properties.filter (fun prop => prop.accessor.isSome) ↔
      NoneTaken properties ∧ (taken = true → ∀ prop ∈ properties.head?, prop.accessor = none) := by
  induction properties generalizing taken with
  | nil => exact iff_of_true rfl ⟨List.IsChain.nil, fun _ prop hprop => by cases hprop⟩
  | cons prop properties ih =>
    have hchain : NoneTaken (prop :: properties) ↔
        (∀ next ∈ properties.head?, prop.accessor.isSome ∨ next.accessor = none) ∧
          NoneTaken properties := List.isChain_cons
    rcases Option.eq_none_or_eq_some prop.accessor with hnone | ⟨accessor, hsome⟩
    · have hfilter : (prop :: properties).filter (fun prop => prop.accessor.isSome) =
          properties.filter fun prop => prop.accessor.isSome := by
        rw [List.filter_cons, hnone]
        rfl
      have hhead : taken = true → ∀ p ∈ (prop :: properties).head?, p.accessor = none := by
        rintro - p hp
        obtain rfl := Option.some.inj hp
        exact hnone
      rw [shown_of_none hnone, hfilter, ih true, hchain, hnone]
      constructor
      · rintro ⟨hrest, hnext⟩
        exact ⟨⟨fun next hmem => .inr (hnext rfl next hmem), hrest⟩, hhead⟩
      · rintro ⟨⟨hnext, hrest⟩, -⟩
        exact ⟨hrest, fun _ next hmem => (hnext next hmem).resolve_left Bool.false_ne_true⟩
    · have hfilter : (prop :: properties).filter (fun prop => prop.accessor.isSome) =
          prop :: properties.filter fun prop => prop.accessor.isSome := by
        rw [List.filter_cons, hsome]
        rfl
      rw [hfilter, hchain]
      cases taken with
      | false =>
        have hshown : shown false (prop :: properties) = prop :: shown false properties :=
          shown_of_some hsome false properties
        rw [hshown, List.cons_inj_right, ih false, hsome]
        constructor
        · rintro ⟨hrest, -⟩
          exact ⟨⟨fun _ _ => .inl rfl, hrest⟩, fun h => (Bool.false_ne_true h).elim⟩
        · rintro ⟨⟨-, hrest⟩, -⟩
          exact ⟨hrest, fun h => (Bool.false_ne_true h).elim⟩
      | true =>
        have hshown : shown true (prop :: properties) = shown false properties :=
          shown_of_some hsome true properties
        have hlength := (shown_sublist false properties).length_le
        rw [hshown]
        constructor
        · intro h
          rw [h, List.length_cons] at hlength
          omega
        · rintro ⟨-, hhead⟩
          have h := hhead rfl prop rfl
          rw [hsome] at h
          cases h

/-- A constant in the range of its type is below the bound of its width. -/
theorem Constant.value_lt (c : Constant) : c.value < 256 ^ c.width := by
  have hpow : (256 : ℤ) ^ c.width = 2 ^ (8 * c.width - 1) * 2 := by
    have hwidth := c.width_pos
    rw [← pow_succ, Nat.sub_add_cancel (by omega), pow_mul]
    norm_num
  have hpos : (0 : ℤ) < 2 ^ (8 * c.width - 1) := by positivity
  have hrange := c.in_range
  split_ifs at hrange
  · omega
  · rw [pow_mul] at hrange
    norm_num at hrange
    exact hrange.2

/-- The bytes of a constant are those of a number below the bound of its width. -/
theorem printedValue_eq (field : FieldInfo) :
    printedValue field = field.constant.value % 256 ^ field.constant.width := by
  have hpos : (0 : ℤ) < 256 ^ field.constant.width := by positivity
  have hnonneg := Int.emod_nonneg field.constant.value hpos.ne'
  have hlt : (field.constant.value % 256 ^ field.constant.width).toNat <
      256 ^ field.constant.width := by
    have h := Int.emod_lt_of_pos field.constant.value hpos
    zify
    rwa [Int.toNat_of_nonneg hnonneg]
  have hfull : 0 < 256 ^ field.constant.bytes.length := by positivity
  rw [printedValue, LittleEndian.overlay_of_full hfull, Constant.bytes,
    LittleEndian.decode_encode_of_lt hlt, Int.toNat_of_nonneg hnonneg]

/-- What is printed is the constant exactly when that is not negative. -/
theorem printedValue_iff (field : FieldInfo) :
    printedValue field = field.constant.value ↔ 0 ≤ field.constant.value := by
  have hpos : (0 : ℤ) < 256 ^ field.constant.width := by positivity
  rw [printedValue_eq]
  constructor
  · intro h
    rw [← h]
    exact Int.emod_nonneg _ hpos.ne'
  · intro h
    exact Int.emod_eq_of_lt h field.constant.value_lt

/-- The line of a field tells its value for a literal of an enumeration alone. -/
theorem fieldLine_eq_iff (value other : FieldInfo → ℤ) (is_enum : Bool) (field : FieldInfo) :
    fieldLine value is_enum field = fieldLine other is_enum field ↔
      (field.literal ∧ is_enum → value field = other field) := by
  unfold fieldLine
  split_ifs with hliteral
  · rw [List.append_left_inj, List.append_right_inj, List.append_right_inj]
    exact ⟨fun h _ => Java.decimal_injective h, fun h => congrArg decimal (h hliteral)⟩
  · exact iff_of_true rfl fun h => absurd h hliteral

/-- The printed fields are the declared ones exactly when no constant of an enum is negative. -/
theorem fields_eq_iff (klass : Il2CppClass) :
    klass.fields.map (fieldLine printedValue klass.is_enum) =
        klass.fields.map (fieldLine (fun field => field.constant.value) klass.is_enum) ↔
      NoneNegative klass := by
  rw [List.map_inj_left, NoneNegative]
  constructor
  · intro h henum field hfield hliteral
    exact (printedValue_iff field).mp
      ((fieldLine_eq_iff _ _ _ _).mp (h field hfield) ⟨hliteral, henum⟩)
  · intro h field hfield
    refine (fieldLine_eq_iff _ _ _ _).mpr fun hboth => (printedValue_iff field).mpr ?_
    exact h hboth.2 field hfield hboth.1

/-- The text of a class declares its members exactly when no property without accessor stands in
front of one with an accessor, and no constant of an enum is negative. -/
theorem declaresMembers_iff (api : Api) (klass : Il2CppClass) (hnames : ClearNames klass) :
    DeclaresMembers api klass ↔ NoneTaken klass.properties ∧ NoneNegative klass := by
  have hshown : shown false klass.properties =
      klass.properties.filter (fun prop => prop.accessor.isSome) ↔ NoneTaken klass.properties := by
    rw [shown_eq_iff]
    exact ⟨fun h => h.1, fun h => ⟨h, fun hfalse => (Bool.false_ne_true hfalse).elim⟩⟩
  rw [DeclaresMembers, codeLines_dump_type api hnames, declared,
    declared, ← fields_eq_iff, ← hshown, List.append_left_inj, List.append_left_inj]
  simp only [List.append_assoc, List.append_right_inj]
  constructor
  · intro h
    obtain ⟨hfields, hproperties⟩ := List.append_inj h (by rw [List.length_map, List.length_map])
    have hlength := congrArg List.length hproperties
    rw [List.length_map, List.length_map] at hlength
    exact ⟨(shown_sublist false klass.properties).eq_of_length hlength, hfields⟩
  · rintro ⟨hproperties, hfields⟩
    rw [hproperties, hfields]

end Exact

section Enum

/-- A name in the basic character set. -/
def nameE : CString := ⟨ascii "E", by decide⟩

/-- A name. -/
def nameX : CString := ⟨ascii "X", by decide⟩

/-- An enum `E` over a signed integer of four bytes, with one constant `X`. -/
def enumWith (value : ℤ) (h : -(2 ^ 31) ≤ value ∧ value < 2 ^ 31) : Il2CppClass where
  ns := nameE
  name := nameE
  flags := TYPE_ATTRIBUTE_PUBLIC ||| TYPE_ATTRIBUTE_SEALED
  is_valuetype := true
  is_enum := true
  parent := none
  interfaces := []
  fields := [{
    flags := FIELD_ATTRIBUTE_PUBLIC ||| FIELD_ATTRIBUTE_STATIC ||| FIELD_ATTRIBUTE_LITERAL
    type := ⟨false, 0, nameE⟩
    name := nameX
    constant := ⟨4, true, value, by decide, by decide, h⟩
    offset := 0 }]
  properties := []
  methods := []

/-- An interface without the function for references. -/
def enumApi : Api := ⟨none, 0⟩

/-- The names of the enumeration are clear. -/
theorem clearNames_enum (value : ℤ) (h : -(2 ^ 31) ≤ value ∧ value < 2 ^ 31) :
    ClearNames (enumWith value h) where
  ns := (by decide : ClearName nameE)
  name := (by decide : ClearName nameE)
  extended name hname := by cases hname
  field field hfield := by
    obtain rfl := List.mem_singleton.mp hfield
    exact (by decide : ClearName nameX ∧ ClearName nameE)
  property prop hprop := by cases hprop
  accessor prop hprop := by cases hprop
  method method hmethod := by cases hmethod
  param method hmethod := by cases hmethod

/-- A constant of one is declared with its value. -/
theorem enum_one : DeclaresMembers enumApi (enumWith 1 (by decide)) := by
  refine (declaresMembers_iff enumApi _ (clearNames_enum 1 (by decide))).mpr ⟨List.IsChain.nil, ?_⟩
  intro _ field hfield _
  obtain rfl := List.mem_singleton.mp hfield
  exact Int.one_nonneg

/-- A constant of minus one is declared with another value. -/
theorem enum_minus_one :
    ClearNames (enumWith (-1) (by decide)) ∧
      ¬ DeclaresMembers enumApi (enumWith (-1) (by decide)) := by
  refine ⟨clearNames_enum (-1) (by decide), fun h => ?_⟩
  rw [DeclaresMembers, codeLines_dump_type enumApi (clearNames_enum (-1) (by decide))] at h
  exact absurd h (by decide +kernel)

end Enum

end XposedJniTrace.Il2cppDump
