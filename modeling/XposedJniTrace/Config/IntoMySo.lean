import XposedJniTrace.Config.InitConfigData

/-!
# Injecting the library

`handleLoadPackage`, `startInit`, `initFunJni` and `intoMySo` of `LHook`, and `initMySoForName` of
`IntoMySoUtils`, as the steps that they carry out over the static fields of a process. What can fail
is an input of each call; a failure of `LoadSoForPath`, `startHookJni` or `startSerialization` is
caught where it happens and changes nothing. The names, the paths and the log are left out.
-/

namespace XposedJniTrace.LHook

/-- The steps that change the process. -/
inductive Action where
  | MergeClassloader
  | dexElements
  | UnZipFolder
  | LoadSoForPath
  | startHookJni
  deriving DecidableEq

/-- `MergeClassloader`: it fails, it fails with the array in place, or it succeeds. -/
inductive Merge where
  | fails
  | failsBehindSet
  | succeeds
  deriving DecidableEq

/-- `getSoPath`: there is no apk, it throws from the extraction on, or it answers a path. -/
inductive SoPath where
  | null
  | throws
  | path
  deriving DecidableEq

/-- What the steps of one injection come to. -/
structure Steps where
  /-- `getPackageName` does not throw. -/
  packageName : Bool
  merge : Merge
  soPath : SoPath
  /-- The class is found. -/
  findClass : Bool
  /-- The file is created. -/
  createNewFile : Bool
  deriving DecidableEq

/-- The state of the process: the static fields, and what has been done. -/
structure Process where
  statics : Statics
  /-- `mProcessClazzLoader` is not null. -/
  classLoader : Bool
  isInit : Bool
  /-- How many callbacks `createAppContext` has. -/
  hooks : ℕ
  actions : List Action

/-- The process at its start. -/
def Process.initial : Process := ⟨Statics.initial, false, false, 0, []⟩

/-- `IntoMySoUtils.initMySoForName`. -/
def initMySoForName (systemPath : Option JString) (steps : Steps) : List Action :=
  .MergeClassloader ::
    match steps.merge with
    | .fails => []
    | .failsBehindSet => [.dexElements]
    | .succeeds =>
      .dexElements ::
        if systemPath = none ∨ systemPath = some DEF_VALUE then
          match steps.soPath with
          | .null => []
          | .throws => [.UnZipFolder]
          | .path => [.UnZipFolder, .LoadSoForPath]
        else [.LoadSoForPath]

/-- The class loader that is injected into is not null. -/
def Process.hasLoader (p : Process) : Bool := !p.statics.isSystemLoadInto || p.classLoader

/-- `intoMySo`: the state behind it, and whether it answers a class. -/
def intoMySo (steps : Steps) (p : Process) : Process × Bool :=
  if p.hasLoader then
    ({ p with actions := p.actions ++ initMySoForName p.statics.systemIntoPath steps },
      steps.findClass)
  else (p, false)

/-- The library is told to start. -/
def callStartHookJni (p : Process) : Process := { p with actions := p.actions ++ [.startHookJni] }

/-- `initFunJni`; the context may be null. -/
def initFunJni (context : Bool) (steps : Steps) (p : Process) : Process :=
  if p.isInit then p
  else if !context then p
  else if !steps.packageName then p
  else if p.statics.isSerialization then { p with isInit := true }
  else
    match intoMySo steps p with
    | (p, false) => p
    | (p, true) =>
      -- what is thrown for the file is caught in front of the flag
      if !steps.createNewFile then { p with isInit := true }
      else if p.statics.mFunctionList.length = 0 then p
      else { callStartHookJni p with isInit := true }

/-- What `ContextUtils.getContext` comes to. -/
inductive GetContext where
  | throws
  | null
  | found
  deriving DecidableEq

/-- `startInit`, with whether the hook of `createAppContext` is made. -/
def startInit (getContext : GetContext) (hooked : Bool) (steps : Steps) (p : Process) : Process :=
  match getContext with
  | .throws => p
  | .null => if hooked then { p with hooks := p.hooks + 1 } else p
  | .found => initFunJni true steps p

/-- The configuration file that was moved by root. -/
inductive ConfigFile where
  | missing
  | throws
  | text (configInfo : JString)
  deriving DecidableEq

/-- How `handleLoadPackage` reads the configuration: the fields behind it, and whether it goes on.
The preferences may throw. -/
def readConfig (parsers : Parsers) (shared : Option JString) (file : ConfigFile) (s : Statics) :
    Statics × Bool :=
  let configJson := shared.getD DEF_VALUE
  let s := match shared with
    | some configJson => initConfigData parsers (some configJson) s
    | none => s
  if configJson = DEF_VALUE then
    match file with
    | .missing => (s, false)
    | .throws => (initConfigData parsers none s, true)
    | .text configInfo => (initConfigData parsers (some configInfo) s, true)
  else (s, true)

/-- `handleLoadPackage` and what it meets, or a callback of `createAppContext`, whose result may be
null. -/
inductive Event where
  | handleLoadPackage (classLoader : Bool) (shared : Option JString) (file : ConfigFile)
      (packageName : JString) (getContext : GetContext) (hooked : Bool) (steps : Steps)
  | createAppContext (result : Bool) (steps : Steps)
  deriving DecidableEq

variable (parsers : Parsers)

/-- `handleLoadPackage`, with what the system gives on the way. -/
def handleLoadPackage (classLoader : Bool) (shared : Option JString) (file : ConfigFile)
    (packageName : JString) (getContext : GetContext) (hooked : Bool) (steps : Steps)
    (p : Process) :
    Process :=
  match readConfig parsers shared file p.statics with
  | (statics, false) => { p with classLoader := classLoader, statics := statics }
  | (statics, true) =>
    let p := { p with classLoader := classLoader, statics := statics }
    if some packageName = p.statics.mTagPackageName then startInit getContext hooked steps p else p

/-- The process behind an event; without a hook there are no callbacks. -/
def Event.step (p : Process) : Event → Process
  | handleLoadPackage classLoader shared file packageName getContext hooked steps =>
    LHook.handleLoadPackage parsers classLoader shared file packageName getContext hooked steps p
  | createAppContext result steps => if p.hooks = 0 then p else initFunJni result steps p

/-- The process behind some events, from its start. -/
def process (events : List Event) : Process := events.foldl (Event.step parsers) Process.initial

end XposedJniTrace.LHook
