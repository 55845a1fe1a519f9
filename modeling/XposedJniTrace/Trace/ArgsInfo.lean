import XposedJniTrace.Trace.JavaValue

/-!
# Reporting the arguments of a Java call

`getArgsInfo` and `getJObjectInfoInternal` of `hook/JnitraceForC.cpp`. Every argument is drawn
from the `va_list` as a `jobject`, whatever its declared type, and a primitive or boxed one is
handed on to the static `toString` of its boxing class in a variadic call of the tracer's own, where
it is read at the type of the signature. Reflection yields the declared types of the method that is
called; JNI calls that the specification leaves undefined answer anything. What the text is used for
after it was written is left out, as are pending exceptions: the Java methods that are run return.
-/

namespace XposedJniTrace.JniTrace

open Mylibc Java Variadic

/-- What an object is, as far as the tracer's calls depend on it. -/
inductive Content where
  | boxed (T : Prim) (v : T.Value)
  /-- The text of `new String(bytes, "UTF-8")`. -/
  | byteArray (utf8 : Text)
  /-- The text of the overload of `Arrays.toString` for the elements. -/
  | primArray (T : Prim) (text : Text)
  /-- The text of `Arrays.toString` for objects. -/
  | refArray (text : Text)
  | plain

/-- An object on the heap of a Java world. -/
structure Obj where
  /-- `getClass().getName()`. -/
  className : CString
  toString : Text
  content : Content

/-- Floating-point numbers, and the objects that references lead to. -/
structure World where
  floats : Floats
  heap : ℕ → Obj

/-- What a report finds that nothing specifies: the registers and the stack that its own variadic
call leaves alone, and the answer of an undefined call. -/
structure Junk (abi : Abi) where
  start : abi.Start
  named : abi.Named 3 start
  answer : Option Text

/-- The primitive type whose branch a class name takes, by its own name or that of its box. -/
def primOf (classInfo : CString) : Option Prim :=
  [Prim.boolean, .byte, .char, .short, .int, .float, .double, .long].find? fun T =>
    my_strcmp classInfo.bytes T.name.bytes = 0 || my_strcmp classInfo.bytes T.boxName.bytes = 0

variable (abi : Abi) (world : World)

/-- `CallStaticObjectMethod(clazz, id, obj)` of the static `toString` at a primitive type. -/
def staticToString (junk : Junk abi) (T : Prim) (obj : ℕ) : Text :=
  let args := abi.place junk.start [⟨.general, obj⟩]
  T.text world.floats (T.read world.floats (abi.draw T.kind args).1)

/-- `new String((byte[]) obj, "UTF-8")`, undefined for an object that is no byte array. -/
def newString (junk : Junk abi) (obj : ℕ) : Option Text :=
  match (world.heap obj).content with
  | .byteArray utf8 => some utf8
  | _ => junk.answer

/-- `Arrays.toString((Object[]) obj)`, undefined for an object that is no array of references. -/
def arraysToString (junk : Junk abi) (obj : ℕ) : Option Text :=
  match (world.heap obj).content with
  | .refArray text => some text
  | _ => junk.answer

/-- The text of an object by the branch that the class name selects; null when there is none. -/
def objectText (junk : Junk abi) (obj : ℕ) (classInfo : CString) : Option Text :=
  match primOf classInfo with
  | some T => some (staticToString abi world junk T obj)
  | none =>
    if (my_strstr classInfo.bytes (ascii "[")).isSome then
      if my_strcmp classInfo.bytes (ascii "[B") = 0 then newString abi world junk obj
      else arraysToString abi world junk obj
    else some (world.heap obj).toString

/-- The line that is written for an object, if any. -/
def getJObjectInfoInternal (junk : Junk abi) (obj : ℕ) (message : Text) (isPrintClassinfo : Bool)
    (classInfo : Option CString) : Option Text :=
  if obj = 0 then none
  else
    let classInfo := classInfo.getD (world.heap obj).className
    match objectText abi world junk obj classInfo with
    | none => none
    | some ret =>
      if ret.length > 0 then
        if isPrintClassinfo then
          some (message ++ ascii "  " ++ classInfo.bytes ++ ascii "  " ++ ret ++ ascii "\n")
        else some (message ++ ascii "  " ++ ret ++ ascii "\n")
      else none

/-- The text that `sprintf` makes of `"args %d "`. -/
def argsInfo (i : ℕ) : Text := ascii "args " ++ decimal i ++ ascii " "

/-- The loop over the declared types: `va_arg(args, jobject)` for every one of them, with the line
that each iteration writes, if any. -/
def argsLoop (junk : ℕ → Junk abi) : ℕ → List CString → abi.VaList → List (Option Text)
  | _, [], _ => []
  | i, classInfo :: types, args =>
    let (arg, args) := abi.draw .general args
    getJObjectInfoInternal abi world (junk i) arg (argsInfo i) true (some classInfo) ::
      argsLoop junk (i + 1) types args

/-- The method that is called, as reflection shows it. -/
structure Reflected where
  invokeMethod : ℕ
  parameterTypes : List CString

/-- The line for the method, and the lines for the arguments. -/
def getArgsInfo (junk : ℕ → Junk abi) (obj jmethodId : ℕ) (method : Reflected)
    (args : abi.VaList) : Option Text × List (Option Text) :=
  if obj = 0 then (none, [])
  else if jmethodId = 0 then (none, [])
  else
    let line := getJObjectInfoInternal abi world (junk 0) method.invokeMethod
      (ascii "invoke method") false none
    (line, argsLoop abi world junk 0 method.parameterTypes args)

end XposedJniTrace.JniTrace
