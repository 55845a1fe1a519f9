import XposedJniTrace.Trace.JavaValue
import XposedJniTrace.Trace.Matching

/-!
# The functions of JNI

What JNI is specified to do for an app and for its tracer: the state that the calls go over, the
functions that `Jnitrace::init` hooks, as the app calls them and as the tracer does, and the other
functions that the tracer uses. A call that the specification forbids ends the run: with a
reference that leads nowhere, with an argument of the wrong class, or while an exception is pending.
The Java methods of the app are arbitrary; those that the tracer calls are `toString` and methods of
the platform, which find memory and the classes that they need.
-/

namespace XposedJniTrace.Jni

open Mylibc (CString c_str ascii)
open Java (Prim Text)
open Variadic (Abi)

/-- How a `toString` ends. -/
inductive Ending where
  | text (text : CString)
  | null
  | throws
  deriving DecidableEq

/-- What an object is to the methods that take arrays. -/
inductive Content where
  /-- The text of `new String(bytes, "UTF-8")`. -/
  | byteArray (utf8 : CString)
  /-- The text of `Arrays.toString` for objects, unless the `toString` of one of them throws. -/
  | refArray (text : Option CString)
  | other
  deriving DecidableEq

/-- What an object is, as far as the calls of the tracer depend on it. -/
structure Obj where
  /-- `getClass().getName()`. -/
  className : CString
  toString : Ending
  content : Content
  deriving DecidableEq

/-- The methods that the tracer looks up: `Class.getName`, `Object.toString`, the two of a reflected
method, the static `toString` of a boxing class, `Arrays.toString` for objects, and
`String(byte[], String)`. -/
inductive OwnID where
  | getName
  | toString
  | getParameterCount
  | getParameterTypes
  | staticToString (T : Prim)
  | arraysToString
  | newString
  deriving DecidableEq

/-- A method of the application, or one that the wrappers ask for themselves. -/
inductive MethodID where
  | app (id : ℕ)
  | own (id : OwnID)
  deriving DecidableEq

/-- What a reference of the tracer leads to. -/
inductive Thing where
  | object (obj : Obj)
  | jclass (name : CString)
  | jstring (text : CString)
  | reflected (id : MethodID)
  | classArray (types : List CString)
  deriving DecidableEq

/-- A reference: a word that the app has, or the `k`-th local reference that was made for the
tracer. -/
inductive Ref where
  | word (w : ℕ)
  | own (k : ℕ) (thing : Thing)
  deriving DecidableEq

/-- The null reference. -/
abbrev Ref.null : Ref := .word 0

/-- A pointer to characters: one of the app, or the `k`-th buffer that was made for the tracer, with
what it was filled with. -/
inductive Chars where
  | app (w : ℕ)
  | own (k : ℕ) (text : CString)
  deriving DecidableEq

/-- The null buffer. -/
abbrev Chars.null : Chars := .app 0

/-- What a function returns. -/
inductive Kind where
  | void
  | ref
  | prim (T : Prim)
  | chars
  | id
  deriving DecidableEq

/-- The type of what a call returns. -/
abbrev Kind.Value : Kind → Type
  | void => Unit
  | ref => Ref
  | prim T => T.Value
  | chars => Chars
  | id => ℕ

/-- The value of a word. -/
def Kind.ofWord : (k : Kind) → ℕ → k.Value
  | void, _ => ()
  | ref, w => .word w
  | prim T, w => BitVec.ofNat T.width w
  | chars, w => .app w
  | id, w => w

/-- Variadic arguments: those of the app, as they lie where `va_start` found them, or the references
that the tracer passes. -/
inductive Args (abi : Abi) where
  | va (args : abi.VaList)
  | refs (refs : List Ref)

/-- `va_arg(args, jobject)`. -/
def Args.draw {abi : Abi} : Args abi → Ref × Args abi
  | va args => (.word (abi.draw .general args).1, .va (abi.draw .general args).2)
  | refs [] => (.null, .refs [])
  | refs (arg :: rest) => (arg, .refs rest)

/-- The functions that are hooked, with their arguments: references, ids of methods and variadic
arguments are what they are to the caller. Those for a primitive type have the type in front. -/
inductive Hooked (R M A : Type) : Kind → Type where
  | CallObjectMethodV (obj : R) (jmethodId : M) (args : A) : Hooked R M A .ref
  | CallVoidMethodV (obj : R) (jmethodId : M) (args : A) : Hooked R M A .void
  | CallPrimMethodV (T : Prim) (obj : R) (jmethodId : M) (args : A) :
      Hooked R M A (.prim T)
  | CallStaticObjectMethodV (obj : R) (jmethodId : M) (args : A) : Hooked R M A .ref
  | CallStaticVoidMethodV (obj : R) (jmethodId : M) (args : A) : Hooked R M A .void
  | CallStaticPrimMethodV (T : Prim) (obj : R) (jmethodId : M) (args : A) :
      Hooked R M A (.prim T)
  | NewStringUTF (bytes : Option CString) : Hooked R M A .ref
  | GetStringUTFChars (argstring : R) (isCopy : ℕ) : Hooked R M A .chars
  | FindClass (name : Option CString) : Hooked R M A .ref
  | NewObjectV (clazz : R) (jmethodId : M) (args : A) : Hooked R M A .ref
  | ToReflectedMethod (clazz : R) (jmethodId : M) (isStatic : Bool) : Hooked R M A .ref
  | FromReflectedMethod (method : R) : Hooked R M A .id
  | GetFieldID (clazz : R) (name sig : Option CString) : Hooked R M A .id
  | GetStaticFieldID (clazz : R) (name sig : Option CString) : Hooked R M A .id
  | GetObjectField (argObj : R) (jfieldId : ℕ) : Hooked R M A .ref
  | GetPrimField (T : Prim) (argObj : R) (jfieldId : ℕ) : Hooked R M A (.prim T)
  | GetStaticObjectField (clazz : R) (jfieldId : ℕ) : Hooked R M A .ref
  | GetStaticPrimField (T : Prim) (clazz : R) (jfieldId : ℕ) : Hooked R M A (.prim T)

/-- A call with what stands for its arguments elsewhere. -/
def Hooked.map {R M A R' M' A' : Type} (f : R → R') (g : M → M') (h : A → A') :
    {k : Kind} → Hooked R M A k → Hooked R' M' A' k
  | _, CallObjectMethodV obj id args => CallObjectMethodV (f obj) (g id) (h args)
  | _, CallVoidMethodV obj id args => CallVoidMethodV (f obj) (g id) (h args)
  | _, CallPrimMethodV T obj id args => CallPrimMethodV T (f obj) (g id) (h args)
  | _, CallStaticObjectMethodV obj id args => CallStaticObjectMethodV (f obj) (g id) (h args)
  | _, CallStaticVoidMethodV obj id args => CallStaticVoidMethodV (f obj) (g id) (h args)
  | _, CallStaticPrimMethodV T obj id args => CallStaticPrimMethodV T (f obj) (g id) (h args)
  | _, NewStringUTF bytes => NewStringUTF bytes
  | _, GetStringUTFChars argstring isCopy => GetStringUTFChars (f argstring) isCopy
  | _, FindClass name => FindClass name
  | _, NewObjectV clazz id args => NewObjectV (f clazz) (g id) (h args)
  | _, ToReflectedMethod clazz id isStatic => ToReflectedMethod (f clazz) (g id) isStatic
  | _, FromReflectedMethod method => FromReflectedMethod (f method)
  | _, GetFieldID clazz name sig => GetFieldID (f clazz) name sig
  | _, GetStaticFieldID clazz name sig => GetStaticFieldID (f clazz) name sig
  | _, GetObjectField argObj id => GetObjectField (f argObj) id
  | _, GetPrimField T argObj id => GetPrimField T (f argObj) id
  | _, GetStaticObjectField clazz id => GetStaticObjectField (f clazz) id
  | _, GetStaticPrimField T clazz id => GetStaticPrimField T (f clazz) id

/-- The functions with what the app passes, or the tracer. -/
abbrev Request (abi : Abi) : Kind → Type := Hooked Ref MethodID (Args abi)

/-- A method as reflection shows it. -/
structure Method where
  isStatic : Bool
  isConstructor : Bool
  /-- The names of the parameter types. -/
  parameterTypes : List CString
  few : parameterTypes.length ≤ 255

/-- How a call of the app ends: its result, unless it throws, and the state of Java. -/
structure Outcome (W : Type) where
  result : ℕ
  thrown : Bool
  java : W

/-- Java, over its states. -/
structure JavaVM (abi : Abi) (W : Type) where
  /-- What the references of the app lead to. -/
  object : W → ℕ → Option Obj
  /-- The characters that a pointer of the app leads to. -/
  chars : W → ℕ → CString
  method : MethodID → Method
  /-- The id can be derived from the class of the name. -/
  derives : CString → MethodID → Bool
  /-- What the static `toString` of a boxing class answers to what it finds. -/
  primText : Prim → Ref → CString
  /-- The `toString` of classes, strings, reflected methods and arrays of classes. -/
  platformText : Thing → CString
  run : {k : Kind} → Request abi k → W → Outcome W

/-- What the app has: the state of Java, whether an exception is pending, its local references. -/
structure App (W : Type) where
  java : W
  pending : Bool
  locals : List ℕ

/-- What was made for the tracer: how many local references, those that are live, whether each of
its buffers is still to be released, and whether one of them was used behind its release. -/
structure Own where
  made : ℕ
  locals : List Ref
  buffers : List Bool
  misused : Bool

/-- The state of the application, that of the wrappers, and the calls made so far. -/
structure State (abi : Abi) (W : Type) where
  app : App W
  own : Own
  /-- The calls of an original that a wrapper makes. -/
  calls : List (Σ k, Request abi k)
  /-- What is written. -/
  lines : List Text

/-- A run that ends when a call is forbidden. -/
abbrev Hook (abi : Abi) (W : Type) := StateT (State abi W) Option

section Functions

variable {abi : Abi} {W : Type} (vm : JavaVM abi W)

/-- What must not be done ends the run. -/
def forbidden {α : Type} : Hook abi W α := fun _ => none

/-- Most functions are forbidden while an exception is pending. -/
def ready : Hook abi W Unit := fun s => if s.app.pending then none else some ((), s)

/-- An object of the platform has a class of the platform, and its `toString` answers. -/
def JavaVM.view (vm : JavaVM abi W) : Thing → Obj
  | .object obj => obj
  | .jclass name =>
    ⟨c_str (ascii "java.lang.Class"), .text (vm.platformText (.jclass name)), .other⟩
  | .jstring text =>
    ⟨c_str (ascii "java.lang.String"), .text (vm.platformText (.jstring text)), .other⟩
  | .reflected id =>
    ⟨if (vm.method id).isConstructor then c_str (ascii "java.lang.reflect.Constructor")
      else c_str (ascii "java.lang.reflect.Method"),
        .text (vm.platformText (.reflected id)), .other⟩
  | .classArray types =>
    ⟨c_str (ascii "[Ljava.lang.Class;"), .text (vm.platformText (.classArray types)),
      .refArray (some (vm.platformText (.classArray types)))⟩

/-- What a reference leads to, unless it is null, deleted, or none. -/
def State.thing (s : State abi W) : Ref → Option Thing
  | .word w => if w = 0 then none else (vm.object s.app.java w).map .object
  | .own k thing => if .own k thing ∈ s.own.locals then some thing else none

/-- A function looks at what its argument leads to. -/
def thingAt (ref : Ref) : Hook abi W Thing := do
  ready
  fun s => (s.thing vm ref).map fun thing => (thing, s)

/-- The next local reference. -/
def newLocal (thing : Thing) : Hook abi W Ref := fun s =>
  some (.own s.own.made thing, { s with
    own := { s.own with made := s.own.made + 1, locals := .own s.own.made thing :: s.own.locals } })

/-- The method that was called has thrown. -/
def throwNew : Hook abi W Ref := fun s =>
    some (.null, { s with app := { s.app with pending := true } })

/-- The next buffer. -/
def newBuffer (text : CString) : Hook abi W Chars := fun s =>
  some (.own s.own.buffers.length text,
    { s with own := { s.own with buffers := s.own.buffers ++ [true] } })

/-- `GetObjectClass`: a new reference to the class. -/
def GetObjectClass (obj : Ref) : Hook abi W Ref := do
  let thing ← thingAt vm obj
  newLocal (.jclass (vm.view thing).className)

/-- The methods that the tracer looks up are there. -/
def GetMethodID (clazz : Ref) (id : OwnID) : Hook abi W MethodID := do
  match ← thingAt vm clazz with
  | .jclass _ => pure (.own id)
  | _ => forbidden

/-- `GetStaticMethodID` finds as `GetMethodID` does. -/
abbrev GetStaticMethodID (clazz : Ref) (id : OwnID) : Hook abi W MethodID := GetMethodID vm clazz id

/-- `GetObjectArrayElement` of an array of classes. -/
def GetObjectArrayElement (array : Ref) (index : ℕ) : Hook abi W Ref := do
  match ← thingAt vm array with
  | .classArray types =>
    match types[index]? with
    | some name => newLocal (.jclass name)
    | none => throwNew
  | _ => forbidden

/-- It may be called while an exception is pending. -/
def DeleteLocalRef (ref : Ref) : Hook abi W Unit := fun s =>
  if ref ∈ s.own.locals then
    some ((), { s with own := { s.own with locals := s.own.locals.erase ref } })
  else none

/-- It may be called while an exception is pending. A buffer that was released is not released
again. -/
def ReleaseStringUTFChars (str : Ref) (chars : Chars) : Hook abi W Unit := fun s =>
  match chars with
  | .own k _ =>
    if str ∈ s.own.locals then
      some ((), { s with
        own := { s.own with
          buffers := s.own.buffers.set k false
          misused := s.own.misused || s.own.buffers[k]? != some true } })
    else none
  | .app _ => none

/-- `ExceptionCheck` -/
def ExceptionCheck : Hook abi W Bool := fun s => some (s.app.pending, s)

/-- `ExceptionClear` -/
def ExceptionClear : Hook abi W Unit := fun s =>
  some ((), { s with app := { s.app with pending := false } })

/-- Reading characters. A buffer that was released still holds what it was filled with. -/
def read (chars : Chars) : Hook abi W CString := fun s =>
  match chars with
  | .app w => some (vm.chars s.app.java w, s)
  | .own k text =>
    some (text,
      { s with own := { s.own with misused := s.own.misused || s.own.buffers[k]? != some true } })

end Functions

section Calls

variable {abi : Abi} {W : Type} (vm : JavaVM abi W)

/-- A method of an object that the tracer calls. -/
def invoke (thing : Thing) : OwnID → Hook abi W Ref
  | .getName =>
    match thing with
    | .jclass name => newLocal (.jstring name)
    | _ => forbidden
  | .toString =>
    match (vm.view thing).toString with
    | .text text => newLocal (.jstring text)
    | .null => pure .null
    | .throws => throwNew
  | .getParameterTypes =>
    match thing with
    | .reflected id => newLocal (.classArray (vm.method id).parameterTypes)
    | _ => forbidden
  | _ => forbidden

/-- A static method that the tracer calls. -/
def invokeStatic : OwnID → List Ref → Hook abi W Ref
  | .staticToString T, [arg] => newLocal (.jstring (vm.primText T arg))
  | .arraysToString, [arg] => do
    let thing ← thingAt vm arg
    match (vm.view thing).content with
    | .refArray (some text) => newLocal (.jstring text)
    | .refArray none => throwNew
    | _ => forbidden
  | _, _ => forbidden

/-- `new String(bytes, charsetName)`. -/
def newString (arg charset : Ref) : Hook abi W Ref := do
  let thing ← thingAt vm arg
  let _ ← thingAt vm charset
  match (vm.view thing).content with
  | .byteArray utf8 => newLocal (.jstring utf8)
  | _ => forbidden

/-- The name of a class as `getName` has it. -/
def dotted (name : CString) : CString := c_str (name.bytes.map fun c => if c = 47 then 46 else c)

/-- The functions as the tracer calls them, each with the arguments that it passes. -/
def ownCall : {k : Kind} → Request abi k → Hook abi W k.Value
  | _, .CallObjectMethodV obj (.own id) _ => do
    let thing ← thingAt vm obj
    invoke vm thing id
  | _, .CallPrimMethodV .int obj (.own .getParameterCount) _ => do
    match ← thingAt vm obj with
    | .reflected id => pure (BitVec.ofNat 32 (vm.method id).parameterTypes.length)
    | _ => forbidden
  | _, .CallStaticObjectMethodV clazz (.own id) (.refs refs) => do
    let _ ← thingAt vm clazz
    invokeStatic vm id refs
  | _, .NewObjectV clazz (.own .newString) (.refs [arg, charset]) => do
    let _ ← thingAt vm clazz
    newString vm arg charset
  | _, .FindClass (some name) => do
    ready
    newLocal (.jclass (dotted name))
  | _, .NewStringUTF (some bytes) => do
    ready
    newLocal (.jstring bytes)
  | _, .GetStringUTFChars str _ => do
    match ← thingAt vm str with
    | .jstring text => newBuffer text
    | _ => forbidden
  | _, .ToReflectedMethod clazz id isStatic => do
    match ← thingAt vm clazz with
    | .jclass name =>
      if vm.derives name id && (vm.method id).isStatic == isStatic then newLocal (.reflected id)
      else forbidden
    | _ => forbidden
  | _, _ => forbidden

section OwnCalls

/-- A method is called on the object that the reference leads to. -/
theorem own_CallObjectMethodV (obj : Ref) (id : OwnID) (args : Args abi) :
    ownCall vm (.CallObjectMethodV obj (.own id) args) =
      thingAt vm obj >>= fun thing => invoke vm thing id := rfl

/-- The number of parameters is that of the reflected method. -/
theorem own_getParameterCount (obj : Ref) (args : Args abi) :
    ownCall vm (.CallPrimMethodV .int obj (.own .getParameterCount) args) =
      thingAt vm obj >>= fun
        | .reflected id => pure (BitVec.ofNat 32 (vm.method id).parameterTypes.length)
        | _ => forbidden := rfl

/-- A static method is called on a class that is there. -/
theorem own_CallStaticObjectMethodV (clazz : Ref) (id : OwnID) (refs : List Ref) :
    ownCall vm (.CallStaticObjectMethodV clazz (.own id) (.refs refs)) =
      thingAt vm clazz >>= fun _ => invokeStatic vm id refs := rfl

/-- A string is made of an array of bytes in a class that is there. -/
theorem own_NewObjectV (clazz arg charset : Ref) :
    ownCall vm (.NewObjectV clazz (.own .newString) (.refs [arg, charset])) =
      thingAt vm clazz >>= fun _ => newString vm arg charset := rfl

/-- `FindClass` leads to a new reference. -/
theorem own_FindClass (name : CString) :
    ownCall vm (.FindClass (some name)) = ready >>= fun _ => newLocal (.jclass (dotted name)) := rfl

/-- `NewStringUTF` leads to a new reference. -/
theorem own_NewStringUTF (bytes : CString) :
    ownCall vm (.NewStringUTF (some bytes)) = ready >>= fun _ => newLocal (.jstring bytes) := rfl

/-- `GetStringUTFChars` leads to a new buffer. -/
theorem own_GetStringUTFChars (str : Ref) (isCopy : ℕ) :
    ownCall vm (.GetStringUTFChars str isCopy) =
      thingAt vm str >>= fun
        | .jstring text => newBuffer text
        | _ => forbidden := rfl

/-- `ToReflectedMethod` leads to a new reference when the class has the method. -/
theorem own_ToReflectedMethod (clazz : Ref) (id : MethodID) (isStatic : Bool) :
    ownCall vm (.ToReflectedMethod clazz id isStatic) =
      thingAt vm clazz >>= fun
        | .jclass name =>
          if vm.derives name id && (vm.method id).isStatic == isStatic then newLocal (.reflected id)
          else forbidden
        | _ => forbidden := rfl

end OwnCalls

/-- The word that a call of the app returns; behind an exception it is null. -/
def Outcome.word (out : Outcome W) : ℕ := if out.thrown then 0 else out.result

/-- What a call leaves the app: a reference that is returned is a new local reference. -/
def Outcome.app (out : Outcome W) (k : Kind) (locals : List ℕ) : App W :=
  ⟨out.java, out.thrown, if k = .ref ∧ out.word ≠ 0 then out.word :: locals else locals⟩

/-- A null string is passed. -/
def Request.nullString {k : Kind} : Request abi k → Bool
  | .GetStringUTFChars argstring _ => argstring = .null
  | _ => false

/-- The functions as the app calls them; JNI takes no null string. -/
def appCall {k : Kind} (request : Request abi k) : Hook abi W k.Value := fun s =>
  if s.app.pending || request.nullString then none
  else
    let out := vm.run request s.app.java
    some (k.ofWord out.word, { s with app := out.app k s.app.locals })

end Calls

end XposedJniTrace.Jni
