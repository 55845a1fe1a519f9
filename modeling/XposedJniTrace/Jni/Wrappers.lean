import XposedJniTrace.Jni.Interface
import XposedJniTrace.Trace.ArgsInfo

/-!
# The wrappers of the JNI tracer

The helpers and the wrappers of `hook/JnitraceForC.cpp`. A wrapper is active for a call from the
app, or for one that the tracer makes of a function that is hooked as well. A `va_list` is passed by
value. The label of a line and what the log does with it are left out.
-/

namespace XposedJniTrace.Jni

open Mylibc (CString c_str ascii my_strcmp my_strstr)
open Java (Prim Text decimal)
open JniTrace (primOf argsInfo)
open Variadic (Abi)

/-- What an activation of a wrapper has: whether its caller is listed, the functions that the tracer
finds in the table, and its original. -/
structure Activation (abi : Abi) (W : Type) where
  listed : Bool
  own : {k : Kind} → Request abi k → Hook abi W k.Value
  orig : {k : Kind} → Request abi k → Hook abi W k.Value
  /-- `to_string` of a floating-point number. -/
  floatString : {T : Prim} → T.Value → Text

section Helpers

variable {abi : Abi} {W : Type} (vm : JavaVM abi W) (act : Activation abi W)

/-- `write`, with the label or without it. -/
def write (msg : Text) : Hook abi W Unit := fun s =>
  some ((), if msg = [] then s else { s with lines := s.lines ++ [msg] })

/-- The class that boxes a type, as `FindClass` takes it. -/
def boxPath : Prim → CString
  | .boolean => c_str (ascii "java/lang/Boolean")
  | .byte => c_str (ascii "java/lang/Byte")
  | .char => c_str (ascii "java/lang/Character")
  | .short => c_str (ascii "java/lang/Short")
  | .int => c_str (ascii "java/lang/Integer")
  | .float => c_str (ascii "java/lang/Float")
  | .double => c_str (ascii "java/lang/Double")
  | .long => c_str (ascii "java/lang/Long")

/-- The name of a class. The buffer is released, and the pointer to it is returned. -/
def getJObjectClassInfo (obj : Ref) : Hook abi W Chars :=
  if obj = .null then pure .null
  else do
    let clazz ← act.own (.FindClass (some (c_str (ascii "java/lang/Class"))))
    let method_id_getName ← GetMethodID vm clazz .getName
    let getClassName_ret ← act.own (.CallObjectMethodV obj method_id_getName (.refs []))
    let getClass ← act.own (.GetStringUTFChars getClassName_ret 0)
    ReleaseStringUTFChars getClassName_ret getClass
    DeleteLocalRef getClassName_ret
    pure getClass

/-- The text of an object by its `toString` -/
def getJObjectToString (obj : Ref) : Hook abi W Chars := do
  let clazz ← act.own (.FindClass (some (c_str (ascii "java/lang/Object"))))
  let method_id_toString ← GetMethodID vm clazz .toString
  let jStr ← act.own (.CallObjectMethodV obj method_id_toString (.refs []))
  act.own (.GetStringUTFChars jStr 0)

/-- The branches for the primitive types. -/
def primToString (T : Prim) (obj : Ref) : Hook abi W Chars := do
  let clazz ← act.own (.FindClass (some (boxPath T)))
  let id ← GetStaticMethodID vm clazz (.staticToString T)
  let jStr ← act.own (.CallStaticObjectMethodV clazz id (.refs [obj]))
  act.own (.GetStringUTFChars jStr 0)

/-- The branch for arrays of bytes, up to the string. -/
def byteArrayToString (arg : Ref) : Hook abi W Ref := do
  let strclazz ← act.own (.FindClass (some (c_str (ascii "java/lang/String"))))
  let utf ← act.own (.NewStringUTF (some (c_str (ascii "UTF-8"))))
  let strInit ← GetMethodID vm strclazz .newString
  let argJstr ← act.own (.NewObjectV strclazz strInit (.refs [arg, utf]))
  DeleteLocalRef utf
  DeleteLocalRef strclazz
  pure argJstr

/-- The branch for the other arrays, up to the string. -/
def arraysToString (arg : Ref) : Hook abi W Ref := do
  let ArrayClazz ← act.own (.FindClass (some (c_str (ascii "java/util/Arrays"))))
  let methodid ← GetStaticMethodID vm ArrayClazz .arraysToString
  act.own (.CallStaticObjectMethodV ArrayClazz methodid (.refs [arg]))

/-- The characters for an object, by the branch that the name of the class selects. -/
def objectToString (obj : Ref) (classInfo : CString) : Hook abi W Chars :=
  match primOf classInfo with
  | some T => primToString vm act T obj
  | none =>
    if (my_strstr classInfo.bytes (ascii "[")).isSome then do
      let argJstr ←
        if my_strcmp classInfo.bytes (ascii "[B") = 0 then byteArrayToString vm act obj
        else arraysToString vm act obj
      if argJstr = .null then pure .null else act.own (.GetStringUTFChars argJstr 0)
    else getJObjectToString vm act obj

/-- The line for what was found, if there is anything. -/
def writeInfo (message : Text) (isPrintClassinfo : Bool) (classInfo ret : Chars) :
    Hook abi W Unit :=
  if ret = .null then pure ()
  else do
    let text ← read vm ret
    if text.bytes = [] then pure ()
    else if isPrintClassinfo then do
      let name ← read vm classInfo
      write (message ++ ascii "  " ++ name.bytes ++ ascii "  " ++ text.bytes ++ ascii "\n")
    else write (message ++ ascii "  " ++ text.bytes ++ ascii "\n")

/-- The part of `getJObjectInfoInternal` behind the name of the class. -/
def describe (obj : Ref) (message : Text) (isPrintClassinfo : Bool) (classInfo : Chars) :
    Hook abi W Unit :=
  if classInfo = .null then pure ()
  else do
    let name ← read vm classInfo
    let ret ← objectToString vm act obj name
    if ← ExceptionCheck then ExceptionClear
    writeInfo vm message isPrintClassinfo classInfo ret

/-- The report of an object, if it is one. -/
def getJObjectInfoInternal (obj : Ref) (message : Text) (isPrintClassinfo : Bool)
    (classInfo : Chars) : Hook abi W Unit :=
  if obj = .null then pure ()
  else if classInfo = .null then do
    let objClass ← GetObjectClass vm obj
    let classInfo ← getJObjectClassInfo vm act objClass
    describe vm act obj message isPrintClassinfo classInfo
  else describe vm act obj message isPrintClassinfo classInfo

/-- The report of an object with its method. -/
def getJObjectInfo (obj : Ref) (methodname : String) : Hook abi W Unit :=
  if obj = .null then pure ()
  else do
    write (ascii "<<<<<------------------" ++ ascii methodname ++
      ascii " start--------------------->>>>>")
    getJObjectInfoInternal vm act obj (ascii "invoke this object") true .null

/-- The loop over the parameters, from the `i`-th on, of which there are `n`. -/
def argsLoop (objectArray : Ref) : ℕ → ℕ → Args abi → Hook abi W Unit
  | 0, _, _ => pure ()
  | n + 1, i, args => do
    let argobj ← GetObjectArrayElement vm objectArray i
    if argobj = .null then argsLoop objectArray n (i + 1) args
    else do
      let classInfo ← getJObjectClassInfo vm act argobj
      getJObjectInfoInternal vm act args.draw.1 (argsInfo i) true classInfo
      argsLoop objectArray n (i + 1) args.draw.2

/-- The part of `getArgsInfo` behind the reflected method. -/
def parametersInfo (invokeMethod : Ref) (args : Args abi) : Hook abi W Unit := do
  let objclass ← GetObjectClass vm invokeMethod
  let parCountId ← GetMethodID vm objclass .getParameterCount
  let size : BitVec 32 ← act.own (.CallPrimMethodV .int invokeMethod parCountId (.refs []))
  if size = 0 then pure ()
  else do
    let method_id_getTypes ← GetMethodID vm objclass .getParameterTypes
    let objectArray ← act.own (.CallObjectMethodV invokeMethod method_id_getTypes (.refs []))
    argsLoop vm act objectArray size.toInt.toNat 0 args

/-- The report of the arguments of a call. -/
def getArgsInfo (obj : Ref) (jmethodId : MethodID) (args : Args abi) (isStatic : Bool) :
    Hook abi W Unit :=
  if obj = .null then pure ()
  else if jmethodId = .app 0 then pure ()
  else do
    let pJclass ← GetObjectClass vm obj
    let invokeMethod ← act.own (.ToReflectedMethod pJclass jmethodId isStatic)
    getJObjectInfoInternal vm act invokeMethod (ascii "invoke method") false .null
    parametersInfo vm act invokeMethod args

end Helpers

section Families

variable {abi : Abi} {W : Type} (vm : JavaVM abi W) (act : Activation abi W)

/-- The shape of the wrappers: for a listed caller, a report in front of the original and one of its
result. -/
def around {k : Kind} (request : Request abi k) (before : Hook abi W Unit)
    (after : k.Value → Hook abi W Unit) : Hook abi W k.Value :=
  if act.listed then do
    before
    let ret ← act.orig request
    after ret
    pure ret
  else act.orig request

/-- What the wrappers of the method calls report first. -/
def reportCall (methodname : String) (obj : Ref) (jmethodId : MethodID) (args : Args abi)
    (isStatic : Bool) : Hook abi W Unit := do
  getJObjectInfo vm act obj methodname
  getArgsInfo vm act obj jmethodId args isStatic

/-- A value as `to_string` has it, or the word that is chosen for a `jboolean`. -/
def printed (T : Prim) (ret : T.Value) : Text :=
  match T, ret with
  | .boolean, ret => if BitVec.toNat ret = 1 then ascii "true" else ascii "false"
  | .char, ret => decimal ret.toNat
  | .byte, ret => decimal ret.toInt
  | .short, ret => decimal ret.toInt
  | .int, ret => decimal ret.toInt
  | .long, ret => decimal ret.toInt
  | .float, ret => act.floatString ret
  | .double, ret => act.floatString ret

/-- The line of a primitive result. -/
def writeResult (label : String) {T : Prim} (ret : T.Value) : Hook abi W Unit :=
  write (ascii label ++ printed act T ret ++ ascii "\n")

/-- The wrapper of a call with a primitive result. -/
def callPrimMethodV (methodname label : String) (T : Prim) (obj : Ref) (jmethodId : MethodID)
    (args : Args abi) : Hook abi W T.Value :=
  around act (.CallPrimMethodV T obj jmethodId args)
    (reportCall vm act methodname obj jmethodId args false) (writeResult act label)

/-- The wrapper of a static call with a primitive result. -/
def callStaticPrimMethodV (methodname label : String) (T : Prim) (obj : Ref) (jmethodId : MethodID)
    (args : Args abi) : Hook abi W T.Value :=
  around act (.CallStaticPrimMethodV T obj jmethodId args)
    (reportCall vm act methodname obj jmethodId args true) (writeResult act label)

/-- The wrapper of a read of a primitive field. -/
def getPrimField (label : String) (T : Prim) (argObj : Ref) (jfieldId : ℕ) : Hook abi W T.Value :=
  around act (.GetPrimField T argObj jfieldId) (pure ()) (writeResult act label)

/-- The wrapper of a read of a primitive static field. -/
def getStaticPrimField (label : String) (T : Prim) (clazz : Ref) (jfieldId : ℕ) :
    Hook abi W T.Value :=
  around act (.GetStaticPrimField T clazz jfieldId) (pure ()) (writeResult act label)

/-- The report of a reference that a function returned. -/
def reportResult (message : String) (isPrintClassinfo : Bool) (ret : Ref) : Hook abi W Unit :=
  if ret ≠ .null then
    getJObjectInfoInternal vm act ret (ascii message) isPrintClassinfo .null
  else pure ()

/-- The report of a field that is looked up. -/
def reportField (clazz : Ref) (line : CString → Hook abi W Unit) : Hook abi W Unit := do
  let toString ← getJObjectToString vm act clazz
  if toString = .null then line (c_str [])
  else do
    let text ← read vm toString
    line text

end Families

section Members

variable {abi : Abi} {W : Type} (vm : JavaVM abi W) (act : Activation abi W)

/-- The wrapper of `CallObjectMethodV`. -/
def new_CallObjectMethodV (obj : Ref) (jmethodId : MethodID) (args : Args abi) : Hook abi W Ref :=
  around act (.CallObjectMethodV obj jmethodId args)
    (reportCall vm act "CallObjectMethodV" obj jmethodId args false)
    fun ret => getJObjectInfoInternal vm act ret (ascii "result object :") true .null

/-- The wrapper of `CallVoidMethodV`. -/
def new_CallVoidMethodV (obj : Ref) (jmethodId : MethodID) (args : Args abi) : Hook abi W Unit :=
  around act (.CallVoidMethodV obj jmethodId args)
    (reportCall vm act "CallVoidMethodV" obj jmethodId args false) fun _ => pure ()

/-- The wrapper of `CallBooleanMethodV`. -/
def new_CallBooleanMethodV :=
  callPrimMethodV vm act "CallBooleanMethodV" "invoke method result Boolean : " .boolean

/-- The wrapper of `CallByteMethodV`. -/
def new_CallByteMethodV := callPrimMethodV vm act "CallByteMethodV" "result Byte : " .byte

/-- The wrapper of `CallCharMethodV`. -/
def new_CallCharMethodV := callPrimMethodV vm act "CallCharMethodV" "result Char : " .char

/-- The wrapper of `CallShortMethodV`. -/
def new_CallShortMethodV := callPrimMethodV vm act "CallShortMethodV" "result Short : " .short

/-- The wrapper of `CallIntMethodV`. -/
def new_CallIntMethodV := callPrimMethodV vm act "CallIntMethodV" "result Int : " .int

/-- The wrapper of `CallLongMethodV`. -/
def new_CallLongMethodV := callPrimMethodV vm act "CallLongMethodV" "result Long : " .long

/-- The wrapper of `CallFloatMethodV`. -/
def new_CallFloatMethodV := callPrimMethodV vm act "CallFloatMethodV" "result Float : " .float

/-- The wrapper of `CallDoubleMethodV`. -/
def new_CallDoubleMethodV := callPrimMethodV vm act "CallDoubleMethodV" "result Double : " .double

/-- The wrapper of `CallStaticObjectMethodV`. -/
def new_CallStaticObjectMethodV (obj : Ref) (jmethodId : MethodID) (args : Args abi) :
    Hook abi W Ref :=
  around act (.CallStaticObjectMethodV obj jmethodId args)
    (reportCall vm act "CallStaticObjectMethodV" obj jmethodId args true)
    fun ret => getJObjectInfoInternal vm act ret (ascii "result object :") true .null

/-- The wrapper of `CallStaticVoidMethodV`. -/
def new_CallStaticVoidMethodV (obj : Ref) (jmethodId : MethodID) (args : Args abi) :
    Hook abi W Unit :=
  around act (.CallStaticVoidMethodV obj jmethodId args)
    (reportCall vm act "CallStaticVoidMethodV" obj jmethodId args true) fun _ => pure ()

/-- The wrapper of `CallStaticBooleanMethodV`. -/
def new_CallStaticBooleanMethodV :=
  callStaticPrimMethodV vm act "CallStaticBooleanMethodV" "result Boolean : " .boolean

/-- The wrapper of `CallStaticByteMethodV`. -/
def new_CallStaticByteMethodV :=
  callStaticPrimMethodV vm act "CallStaticByteMethodV" "result Byte : " .byte

/-- The wrapper of `CallStaticCharMethodV`. -/
def new_CallStaticCharMethodV :=
  callStaticPrimMethodV vm act "CallStaticCharMethodV" "result Char : " .char

/-- The wrapper of `CallStaticShortMethodV`. -/
def new_CallStaticShortMethodV :=
  callStaticPrimMethodV vm act "CallStaticShortMethodV" "result Short : " .short

/-- The wrapper of `CallStaticIntMethodV`. -/
def new_CallStaticIntMethodV :=
  callStaticPrimMethodV vm act "CallStaticIntMethodV" "result Int : " .int

/-- The wrapper of `CallStaticLongMethodV`. -/
def new_CallStaticLongMethodV :=
  callStaticPrimMethodV vm act "CallStaticLongMethodV" "result Long : " .long

/-- The wrapper of `CallStaticFloatMethodV`. -/
def new_CallStaticFloatMethodV :=
  callStaticPrimMethodV vm act "CallStaticFloatMethodV" "result Float : " .float

/-- The wrapper of `CallStaticDoubleMethodV`. -/
def new_CallStaticDoubleMethodV :=
  callStaticPrimMethodV vm act "CallStaticDoubleMethodV" "result Double : " .double

/-- The wrapper of `NewStringUTF`. -/
def new_NewStringUTF (bytes : Option CString) : Hook abi W Ref :=
  around act (.NewStringUTF bytes)
    (write (ascii "NewStringUTF : " ++ (bytes.elim [] CString.bytes) ++ ascii "\n"))
    fun _ => pure ()

/-- For a listed caller, a null string does not come to the original. -/
def new_GetStringUTFChars (argstring : Ref) (isCopy : ℕ) : Hook abi W Chars :=
  if act.listed && argstring = .null then pure .null
  else
    around act (.GetStringUTFChars argstring isCopy) (pure ()) fun chars =>
      if chars = .null then pure ()
      else do
        let text ← read vm chars
        if text.bytes = [] then pure ()
        else write (ascii "GetStringUTFChars : " ++ text.bytes ++ ascii "\n")

/-- The wrapper of `FindClass`. -/
def new_FindClass (name : Option CString) : Hook abi W Ref :=
  around act (.FindClass name)
    (write (ascii "find class : " ++ (name.elim [] CString.bytes) ++ ascii "\n")) fun _ => pure ()

/-- The wrapper of `NewObjectV`. -/
def new_NewObjectV (clazz : Ref) (jmethodId : MethodID) (args : Args abi) : Hook abi W Ref :=
  around act (.NewObjectV clazz jmethodId args) (pure ()) fun obj => do
    write (ascii "<<<<<------------------NewObjectV start  --------------------->>>>>")
    getArgsInfo vm act obj jmethodId args false

/-- The wrapper of `ToReflectedMethod`. -/
def new_ToReflectedMethod (clazz : Ref) (jmethodId : MethodID) (isStatic : Bool) : Hook abi W Ref :=
  around act (.ToReflectedMethod clazz jmethodId isStatic) (pure ())
    (reportResult vm act "ToReflectedMethod result " false)

/-- The wrapper of `FromReflectedMethod`. -/
def new_FromReflectedMethod (method : Ref) : Hook abi W ℕ :=
  around act (.FromReflectedMethod method)
    (getJObjectInfoInternal vm act method (ascii "FromReflectedMethod arg ") false .null)
    fun _ => pure ()

/-- The wrapper of `GetFieldID`. -/
def new_GetFieldID (clazz : Ref) (name sig : Option CString) : Hook abi W ℕ :=
  around act (.GetFieldID clazz name sig)
    (reportField vm act clazz fun toString =>
      write (ascii "get field info  : " ++ toString.bytes ++ ascii " name-> " ++
        name.elim [] CString.bytes ++ ascii " sign -> " ++ sig.elim [] CString.bytes ++ ascii "\n"))
    fun _ => pure ()

/-- The name and the signature are not tested for null here. -/
def new_GetStaticFieldID (clazz : Ref) (name sig : Option CString) : Hook abi W ℕ :=
  around act (.GetStaticFieldID clazz name sig)
    (reportField vm act clazz fun toString =>
      match name, sig with
      | some name, some sig =>
        write (ascii "get static field info  : " ++ toString.bytes ++ ascii " " ++ name.bytes ++
          ascii " " ++ sig.bytes ++ ascii "\n")
      | _, _ => forbidden)
    fun _ => pure ()

/-- The wrapper of `GetObjectField`. -/
def new_GetObjectField (argObj : Ref) (jfieldId : ℕ) : Hook abi W Ref :=
  around act (.GetObjectField argObj jfieldId) (pure ())
    (reportResult vm act "GetObjectField result object :" true)

/-- The wrapper of `GetBooleanField`. -/
def new_GetBooleanField := getPrimField act "GetBooleanField result jboolean : " .boolean

/-- The wrapper of `GetByteField`. -/
def new_GetByteField := getPrimField act "GetByteField result jbyte : " .byte

/-- The wrapper of `GetCharField`. -/
def new_GetCharField := getPrimField act "GetCharField result jbyte : " .char

/-- The wrapper of `GetShortField`. -/
def new_GetShortField := getPrimField act "GetShortField result jshort : " .short

/-- The wrapper of `GetIntField`. -/
def new_GetIntField := getPrimField act "GetIntField result jint : " .int

/-- The wrapper of `GetLongField`. -/
def new_GetLongField := getPrimField act "GetLongField result jlong : " .long

/-- The wrapper of `GetFloatField`. -/
def new_GetFloatField := getPrimField act "GetFloatField result jfloat : " .float

/-- The wrapper of `GetDoubleField`. -/
def new_GetDoubleField := getPrimField act "GetDoubleField result jdouble : " .double

/-- The wrapper of `GetStaticObjectField`. -/
def new_GetStaticObjectField (clazz : Ref) (jfieldId : ℕ) : Hook abi W Ref :=
  around act (.GetStaticObjectField clazz jfieldId) (pure ())
    (reportResult vm act "GetStaticObjectField result object :" true)

/-- The wrapper of `GetStaticBooleanField`. -/
def new_GetStaticBooleanField :=
  getStaticPrimField act "GetStaticBooleanField result jboolean : " .boolean

/-- The wrapper of `GetStaticByteField`. -/
def new_GetStaticByteField := getStaticPrimField act "GetStaticByteField result jbyte : " .byte

/-- The wrapper of `GetStaticCharField`. -/
def new_GetStaticCharField := getStaticPrimField act "GetStaticCharField result jchar : " .char

/-- The wrapper of `GetStaticShortField`. -/
def new_GetStaticShortField := getStaticPrimField act "GetStaticShortField result jshort : " .short

/-- The wrapper of `GetStaticIntField`. -/
def new_GetStaticIntField := getStaticPrimField act "GetStaticIntField result jint :  " .int

/-- The wrapper of `GetStaticLongField`. -/
def new_GetStaticLongField := getStaticPrimField act "GetStaticLongField result jlong :  " .long

/-- The wrapper of `GetStaticFloatField`. -/
def new_GetStaticFloatField := getStaticPrimField act "GetStaticFloatField result jfloat :  " .float

/-- The wrapper of `GetStaticDoubleField`. -/
def new_GetStaticDoubleField :=
  getStaticPrimField act "GetStaticDoubleField result jdouble :  " .double

/-- The wrapper that `Jnitrace::init` puts in the place of a function. -/
def wrapper : {k : Kind} → Request abi k → Hook abi W k.Value
  | _, .CallObjectMethodV obj id args => new_CallObjectMethodV vm act obj id args
  | _, .CallVoidMethodV obj id args => new_CallVoidMethodV vm act obj id args
  | _, .CallPrimMethodV .boolean obj id args => new_CallBooleanMethodV vm act obj id args
  | _, .CallPrimMethodV .byte obj id args => new_CallByteMethodV vm act obj id args
  | _, .CallPrimMethodV .char obj id args => new_CallCharMethodV vm act obj id args
  | _, .CallPrimMethodV .short obj id args => new_CallShortMethodV vm act obj id args
  | _, .CallPrimMethodV .int obj id args => new_CallIntMethodV vm act obj id args
  | _, .CallPrimMethodV .float obj id args => new_CallFloatMethodV vm act obj id args
  | _, .CallPrimMethodV .double obj id args => new_CallDoubleMethodV vm act obj id args
  | _, .CallPrimMethodV .long obj id args => new_CallLongMethodV vm act obj id args
  | _, .CallStaticObjectMethodV obj id args => new_CallStaticObjectMethodV vm act obj id args
  | _, .CallStaticVoidMethodV obj id args => new_CallStaticVoidMethodV vm act obj id args
  | _, .CallStaticPrimMethodV .boolean obj id args =>
    new_CallStaticBooleanMethodV vm act obj id args
  | _, .CallStaticPrimMethodV .byte obj id args => new_CallStaticByteMethodV vm act obj id args
  | _, .CallStaticPrimMethodV .char obj id args => new_CallStaticCharMethodV vm act obj id args
  | _, .CallStaticPrimMethodV .short obj id args => new_CallStaticShortMethodV vm act obj id args
  | _, .CallStaticPrimMethodV .int obj id args => new_CallStaticIntMethodV vm act obj id args
  | _, .CallStaticPrimMethodV .float obj id args => new_CallStaticFloatMethodV vm act obj id args
  | _, .CallStaticPrimMethodV .double obj id args => new_CallStaticDoubleMethodV vm act obj id args
  | _, .CallStaticPrimMethodV .long obj id args => new_CallStaticLongMethodV vm act obj id args
  | _, .NewStringUTF bytes => new_NewStringUTF act bytes
  | _, .GetStringUTFChars argstring isCopy => new_GetStringUTFChars vm act argstring isCopy
  | _, .FindClass name => new_FindClass act name
  | _, .NewObjectV clazz id args => new_NewObjectV vm act clazz id args
  | _, .ToReflectedMethod clazz id isStatic => new_ToReflectedMethod vm act clazz id isStatic
  | _, .FromReflectedMethod method => new_FromReflectedMethod vm act method
  | _, .GetFieldID clazz name sig => new_GetFieldID vm act clazz name sig
  | _, .GetStaticFieldID clazz name sig => new_GetStaticFieldID vm act clazz name sig
  | _, .GetObjectField argObj id => new_GetObjectField vm act argObj id
  | _, .GetPrimField .boolean argObj id => new_GetBooleanField act argObj id
  | _, .GetPrimField .byte argObj id => new_GetByteField act argObj id
  | _, .GetPrimField .char argObj id => new_GetCharField act argObj id
  | _, .GetPrimField .short argObj id => new_GetShortField act argObj id
  | _, .GetPrimField .int argObj id => new_GetIntField act argObj id
  | _, .GetPrimField .float argObj id => new_GetFloatField act argObj id
  | _, .GetPrimField .double argObj id => new_GetDoubleField act argObj id
  | _, .GetPrimField .long argObj id => new_GetLongField act argObj id
  | _, .GetStaticObjectField clazz id => new_GetStaticObjectField vm act clazz id
  | _, .GetStaticPrimField .boolean clazz id => new_GetStaticBooleanField act clazz id
  | _, .GetStaticPrimField .byte clazz id => new_GetStaticByteField act clazz id
  | _, .GetStaticPrimField .char clazz id => new_GetStaticCharField act clazz id
  | _, .GetStaticPrimField .short clazz id => new_GetStaticShortField act clazz id
  | _, .GetStaticPrimField .int clazz id => new_GetStaticIntField act clazz id
  | _, .GetStaticPrimField .float clazz id => new_GetStaticFloatField act clazz id
  | _, .GetStaticPrimField .double clazz id => new_GetStaticDoubleField act clazz id
  | _, .GetStaticPrimField .long clazz id => new_GetStaticLongField act clazz id

end Members

end XposedJniTrace.Jni
