import Mathlib.Data.List.Basic
import Mathlib.Data.Nat.Notation

/-!
# Reading the configuration

`LHook.initConfigData` of the tracer, over the static fields of `LHook`. The parsers are
parameters that succeed or throw; of an object that `JSONObject` made, what counts is the value to
which each key is coerced. `GsonUtils.str2obj` turns what `Gson` throws into null. What is thrown in
between is caught at the end of the method and leaves the fields as they are then. The log is left
out.
-/

namespace XposedJniTrace.LHook

/-- A Java string, as its UTF-16 units. -/
abbrev JString := List UInt16

/-- A text of the basic plane. -/
def utf16 (text : String) : JString := text.toList.map fun c => UInt16.ofNat c.toNat

/-- The value for a string that is missing. -/
def DEF_VALUE : JString := utf16 "DEF"

/-- The keys of `ConfigKey` that are read. -/
inductive ConfigKey where
  | PACKAGE_NAME
  | MODULE_SO_PATH
  | SAVE_TIME
  | IS_SERIALIZATION
  | IS_LISTEN_TO_ALL
  | FILTER_LIST
  | LIST_OF_FUNCTIONS
  | IS_SYSTEM_LOAD_INTO
  | IS_USE_SYSTEM_PATH
  | SYSTEM_INTO_PATH
  deriving DecidableEq

/-- A parsed object: for each key the string, the boolean and the long that its value is coerced to,
if there are such. -/
structure JSONObject where
  string : ConfigKey → Option JString
  boolean : ConfigKey → Option Bool
  long : ConfigKey → Option Int

namespace JSONObject

/-- `JSONObject.optString` -/
def optString (json : JSONObject) (name : ConfigKey) (fallback : JString) : JString :=
  (json.string name).getD fallback

/-- `JSONObject.optBoolean` -/
def optBoolean (json : JSONObject) (name : ConfigKey) (fallback : Bool) : Bool :=
  (json.boolean name).getD fallback

/-- `JSONObject.optLong` -/
def optLong (json : JSONObject) (name : ConfigKey) (fallback : Int) : Int :=
  (json.long name).getD fallback

end JSONObject

/-- An element of a list that `Gson` made: null, a string, or something else, by its text. -/
inductive Element where
  | null
  | string (s : JString)
  | other (text : JString)
  deriving DecidableEq

/-- `String.valueOf`. -/
def Element.valueOf : Element → JString
  | null => utf16 "null"
  | string s => s
  | other text => text

/-- The cast to `String`; it throws for what is neither null nor a string. -/
def Element.cast : Element → Option (Option JString)
  | null => some none
  | string s => some (some s)
  | other _ => none

/-- The parsers: null is what is thrown. `Gson` may also succeed with a null reference. -/
structure Parsers where
  newJSONObject : JString → Option JSONObject
  fromJson : JString → Option (Option (List Element))

/-- `GsonUtils.str2obj` of a list. -/
def GsonUtils.str2obj (parsers : Parsers) (jsonString : JString) : Option (List Element) :=
  match parsers.fromJson jsonString with
  | some list => list
  | none => none

/-- The static fields of `LHook` that `initConfigData` writes; the lists of strings hold null as
`none`. -/
structure Statics where
  mTagPackageName : Option JString
  mModuleBaseApkPath : Option JString
  mSaveTime : Int
  isSerialization : Bool
  isSystemLoadInto : Bool
  isListenAll : Bool
  mFilterList : List (Option JString)
  mFunctionList : List JString
  systemIntoPath : Option JString
  deriving DecidableEq

/-- The fields as the class initialises them. -/
def Statics.initial : Statics := ⟨none, none, 0, false, false, false, [], [], none⟩

/-- The loop `for (Object obj : arrayList) mFilterList.add((String) obj)`: the fields behind it, and
whether it comes to its end. -/
def addFilters : List Element → Statics → Statics × Bool
  | [], s => (s, true)
  | obj :: arrayList, s =>
    match obj.cast with
    | some item => addFilters arrayList { s with mFilterList := s.mFilterList ++ [item] }
    | none => (s, false)

section Read

variable (parsers : Parsers) (json : JSONObject)

/-- The list that a key holds, unless it is the default. -/
def listOf (name : ConfigKey) : Option (List Element) :=
  let text := json.optString name DEF_VALUE
  if text ≠ DEF_VALUE then GsonUtils.str2obj parsers text else none

/-- The fields up to the list of functions. -/
def readFunctions (s : Statics) : Statics :=
  let s := { s with
    mTagPackageName := some (json.optString .PACKAGE_NAME DEF_VALUE)
    mModuleBaseApkPath := some (json.optString .MODULE_SO_PATH DEF_VALUE)
    mSaveTime := json.optLong .SAVE_TIME 0
    isSerialization := json.optBoolean .IS_SERIALIZATION false
    isSystemLoadInto := json.optBoolean .IS_SYSTEM_LOAD_INTO false }
  match listOf parsers json .LIST_OF_FUNCTIONS with
  | some arrayList =>
    { s with mFunctionList := s.mFunctionList ++ arrayList.map Element.valueOf }
  | none => s

/-- The mode and the list of filters, and whether the casts go through. -/
def readFilters (s : Statics) : Statics × Bool :=
  let s := { s with isListenAll := json.optBoolean .IS_LISTEN_TO_ALL false }
  if !s.isListenAll then
    match listOf parsers json .FILTER_LIST with
    | some arrayList => addFilters arrayList s
    | none => (s, true)
  else (s, true)

/-- The path of the system library. -/
def readSystemPath (s : Statics) : Statics :=
  let isSystemPath := json.optBoolean .IS_USE_SYSTEM_PATH false
  if isSystemPath then
    { s with systemIntoPath := some (json.optString .SYSTEM_INTO_PATH DEF_VALUE) }
  else s

/-- The body of the `try`, once the string is an object. -/
def readJSON (s : Statics) : Statics :=
  match readFilters parsers json (readFunctions parsers json s) with
  | (s, true) => readSystemPath json s
  | (s, false) => s

end Read

/-- `initConfigData`; null is no string. -/
def initConfigData (parsers : Parsers) (configJson : Option JString) (s : Statics) : Statics :=
  match configJson with
  | none => s
  | some configJson =>
    if configJson.length = 0 ∨ configJson = DEF_VALUE then s
    else
      match parsers.newJSONObject configJson with
      | none => s
      | some json => readJSON parsers json s

/-- The fields behind some calls in one process. -/
def run (parsers : Parsers) (configs : List (Option JString)) : Statics :=
  configs.foldl (fun s configJson => initConfigData parsers configJson s) Statics.initial

end XposedJniTrace.LHook
