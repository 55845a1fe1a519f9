import XposedJniTrace.Config.InitConfigData

/-!
# The last configuration

What reading the configuration is to leave behind: after a string that decodes, fields that are
those of that string alone, and after one that does not, the fields as they were. The lists are
appended to, the path of the system library is written on one branch only, and a string that fails
late has written its first fields; one call keeps to the purpose exactly when none of this shows.
-/

namespace XposedJniTrace.LHook

/-- The fields of a configuration: all but the time at which it was saved. -/
def Statics.fields (s : Statics) : Statics := { s with mSaveTime := 0 }

/-- What a string is parsed to; null, the empty string and the default are not parsed. -/
def parsed (parsers : Parsers) (configJson : Option JString) : Option JSONObject :=
  configJson.bind fun text =>
    if text.length = 0 ∨ text = DEF_VALUE then none else parsers.newJSONObject text

section Complete

variable (parsers : Parsers) (json : JSONObject)

/-- The lists of an object decode: `Gson` does not throw, and all filters are strings. The filters
are read in the mode that uses them. -/
structure Complete : Prop where
  functions : json.optString .LIST_OF_FUNCTIONS DEF_VALUE ≠ DEF_VALUE →
    parsers.fromJson (json.optString .LIST_OF_FUNCTIONS DEF_VALUE) ≠ none
  filters : json.optBoolean .IS_LISTEN_TO_ALL false = false →
    json.optString .FILTER_LIST DEF_VALUE ≠ DEF_VALUE →
      parsers.fromJson (json.optString .FILTER_LIST DEF_VALUE) ≠ none
  strings : json.optBoolean .IS_LISTEN_TO_ALL false = false →
    ∀ arrayList, listOf parsers json .FILTER_LIST = some arrayList →
      ∀ obj ∈ arrayList, obj.cast ≠ none

/-- The filters in front of the first element that is no string, and whether there is none. -/
def castAll : List Element → List (Option JString) × Bool
  | [] => ([], true)
  | obj :: arrayList =>
    match obj.cast with
    | some item => (item :: (castAll arrayList).1, (castAll arrayList).2)
    | none => ([], false)

/-- The functions that an object appends. -/
def functionsOf : List JString :=
  ((listOf parsers json .LIST_OF_FUNCTIONS).getD []).map Element.valueOf

/-- The filters that an object appends, and whether the casts go through. -/
def filtersOf : List (Option JString) × Bool :=
  if json.optBoolean .IS_LISTEN_TO_ALL false then ([], true)
  else castAll ((listOf parsers json .FILTER_LIST).getD [])

/-- What an object that decodes does not overwrite is as it is at first. -/
structure NothingLeft (s : Statics) : Prop where
  functions : s.mFunctionList = []
  filters : s.mFilterList = []
  systemPath : json.optBoolean .IS_USE_SYSTEM_PATH false = true ∨ s.systemIntoPath = none

/-- What an object that does not decode writes before it fails is what is there. -/
structure NothingNew (s : Statics) : Prop where
  packageName : s.mTagPackageName = some (json.optString .PACKAGE_NAME DEF_VALUE)
  apkPath : s.mModuleBaseApkPath = some (json.optString .MODULE_SO_PATH DEF_VALUE)
  serialization : s.isSerialization = json.optBoolean .IS_SERIALIZATION false
  systemLoadInto : s.isSystemLoadInto = json.optBoolean .IS_SYSTEM_LOAD_INTO false
  listenAll : s.isListenAll = json.optBoolean .IS_LISTEN_TO_ALL false
  functions : functionsOf parsers json = []
  filters : (filtersOf parsers json).1 = []
  systemPath : (filtersOf parsers json).2 = true →
    json.optBoolean .IS_USE_SYSTEM_PATH false = true →
      s.systemIntoPath = some (json.optString .SYSTEM_INTO_PATH DEF_VALUE)

end Complete

/-- A string decodes: it is parsed, and the lists in it decode. -/
def Decodes (parsers : Parsers) (configJson : Option JString) : Prop :=
  ∃ json, parsed parsers configJson = some json ∧ Complete parsers json

/-- A call does not show what came before it, nor what it could not finish. -/
def Unmixed (parsers : Parsers) (s : Statics) (configJson : Option JString) : Prop :=
  ∀ json, parsed parsers configJson = some json →
    (Complete parsers json → NothingLeft json s) ∧
      (¬ Complete parsers json → NothingNew parsers json s)

/-- After a string that decodes the fields are those that it gives a new process, whatever was read
before it, and after one that does not they are what they were. -/
def LastRead (parsers : Parsers) (configs : List (Option JString)) : Prop :=
  ∀ past configJson future, configs = past ++ configJson :: future →
    (Decodes parsers configJson →
      (run parsers (past ++ [configJson])).fields =
        (initConfigData parsers configJson Statics.initial).fields) ∧
    (¬ Decodes parsers configJson →
      (run parsers (past ++ [configJson])).fields = (run parsers past).fields)

section Step

variable (parsers : Parsers) (json : JSONObject) (s : Statics)

/-- The filters that are read are appended. -/
theorem addFilters_eq (arrayList : List Element) (s : Statics) :
    addFilters arrayList s =
      ({ s with mFilterList := s.mFilterList ++ (castAll arrayList).1 },
        (castAll arrayList).2) := by
  induction arrayList generalizing s with
  | nil => simp [addFilters, castAll]
  | cons obj arrayList ih =>
    rw [addFilters, castAll]
    cases obj.cast with
    | none => simp
    | some item => simp [ih]

/-- The list of functions grows by those of the object. -/
theorem readFunctions_eq :
    readFunctions parsers json s = { s with
      mTagPackageName := some (json.optString .PACKAGE_NAME DEF_VALUE)
      mModuleBaseApkPath := some (json.optString .MODULE_SO_PATH DEF_VALUE)
      mSaveTime := json.optLong .SAVE_TIME 0
      isSerialization := json.optBoolean .IS_SERIALIZATION false
      isSystemLoadInto := json.optBoolean .IS_SYSTEM_LOAD_INTO false
      mFunctionList := s.mFunctionList ++ functionsOf parsers json } := by
  rw [readFunctions, functionsOf]
  cases listOf parsers json .LIST_OF_FUNCTIONS with
  | none => simp
  | some arrayList => rfl

/-- The list of filters grows by those of the object, up to the first that is no string. -/
theorem readFilters_eq :
    readFilters parsers json s =
      ({ s with
        isListenAll := json.optBoolean .IS_LISTEN_TO_ALL false
        mFilterList := s.mFilterList ++ (filtersOf parsers json).1 },
      (filtersOf parsers json).2) := by
  rw [readFilters, filtersOf]
  cases json.optBoolean .IS_LISTEN_TO_ALL false with
  | true => simp
  | false =>
    cases listOf parsers json .FILTER_LIST with
    | none => simp [castAll]
    | some arrayList => simp [addFilters_eq]

/-- All that an object does to the fields. -/
theorem readJSON_eq :
    readJSON parsers json s =
      { mTagPackageName := some (json.optString .PACKAGE_NAME DEF_VALUE)
        mModuleBaseApkPath := some (json.optString .MODULE_SO_PATH DEF_VALUE)
        mSaveTime := json.optLong .SAVE_TIME 0
        isSerialization := json.optBoolean .IS_SERIALIZATION false
        isSystemLoadInto := json.optBoolean .IS_SYSTEM_LOAD_INTO false
        isListenAll := json.optBoolean .IS_LISTEN_TO_ALL false
        mFunctionList := s.mFunctionList ++ functionsOf parsers json
        mFilterList := s.mFilterList ++ (filtersOf parsers json).1
        systemIntoPath :=
          if (filtersOf parsers json).2 && json.optBoolean .IS_USE_SYSTEM_PATH false then
            some (json.optString .SYSTEM_INTO_PATH DEF_VALUE)
          else s.systemIntoPath } := by
  rw [readJSON, readFilters_eq, readFunctions_eq]
  cases (filtersOf parsers json).2 with
  | true =>
    change readSystemPath json _ = _
    unfold readSystemPath
    cases json.optBoolean .IS_USE_SYSTEM_PATH false with
    | true => rfl
    | false => rfl
  | false => rfl

/-- What is read is what the parsed object says. -/
theorem initConfigData_eq (configJson : Option JString) :
    initConfigData parsers configJson s =
      match parsed parsers configJson with
      | none => s
      | some json => readJSON parsers json s := by
  cases configJson with
  | none => rfl
  | some text =>
    rw [initConfigData, parsed, Option.bind_some]
    split_ifs
    · rfl
    · rfl

/-- In an object that decodes all casts go through. -/
theorem Complete.filtersOf_snd {parsers : Parsers} {json : JSONObject} (h : Complete parsers json) :
    (filtersOf parsers json).2 = true := by
  have hcast : ∀ arrayList : List Element, (∀ obj ∈ arrayList, obj.cast ≠ none) →
      (castAll arrayList).2 = true := by
    intro arrayList
    induction arrayList with
    | nil => exact fun _ => rfl
    | cons obj arrayList ih =>
      intro hall
      rw [castAll]
      cases hobj : obj.cast with
      | none => exact absurd hobj (hall obj List.mem_cons_self)
      | some item => exact ih fun other hother => hall other (List.mem_cons_of_mem obj hother)
  rw [filtersOf]
  split_ifs with hall
  · rfl
  · cases hlist : listOf parsers json .FILTER_LIST with
    | none => rfl
    | some arrayList => exact hcast arrayList (h.strings (eq_false_of_ne_true hall) arrayList hlist)

/-- An object that decodes leaves the fields that it gives a new process exactly when it finds
nothing that it does not overwrite. -/
theorem readJSON_fields_eq_initial (h : Complete parsers json) :
    (readJSON parsers json s).fields = (readJSON parsers json Statics.initial).fields ↔
      NothingLeft json s := by
  rw [readJSON_eq, readJSON_eq, h.filtersOf_snd, Bool.true_and]
  simp only [Statics.fields, Statics.initial, Statics.mk.injEq, List.nil_append,
    List.append_left_eq_self, true_and]
  constructor
  · intro hsame
    obtain ⟨hfilters, hfunctions, hpath⟩ := hsame
    refine ⟨hfunctions, hfilters, ?_⟩
    cases huse : json.optBoolean .IS_USE_SYSTEM_PATH false with
    | true => exact .inl rfl
    | false =>
      rw [huse] at hpath
      exact .inr hpath
  · intro hleft
    refine ⟨hleft.filters, hleft.functions, ?_⟩
    rcases hleft.systemPath with huse | hnull
    · rw [huse]
      rfl
    · rw [hnull]

/-- An object leaves the fields as they were exactly when it finds what it writes. -/
theorem readJSON_fields_eq_self :
    (readJSON parsers json s).fields = s.fields ↔ NothingNew parsers json s := by
  rw [readJSON_eq]
  simp only [Statics.fields, Statics.mk.injEq, List.append_right_eq_self, true_and]
  constructor
  · intro hsame
    obtain ⟨hname, hapk, hserial, hsystem, hall, hfilters, hfunctions, hpath⟩ := hsame
    refine ⟨hname.symm, hapk.symm, hserial.symm, hsystem.symm, hall.symm, hfunctions, hfilters, ?_⟩
    intro hcast huse
    rw [hcast, huse] at hpath
    exact hpath.symm
  · intro hnew
    refine ⟨hnew.packageName.symm, hnew.apkPath.symm, hnew.serialization.symm,
      hnew.systemLoadInto.symm, hnew.listenAll.symm, hnew.filters, hnew.functions, ?_⟩
    split_ifs with hpath
    · rw [Bool.and_eq_true] at hpath
      exact (hnew.systemPath hpath.1 hpath.2).symm
    · rfl

end Step

/-- A run keeps to the last configuration exactly when no call shows what came before it, nor what
it could not finish. -/
theorem lastRead_iff_unmixed (parsers : Parsers) (configs : List (Option JString)) :
    LastRead parsers configs ↔ ∀ past configJson future, configs = past ++ configJson :: future →
      Unmixed parsers (run parsers past) configJson := by
  have hcall (past : List (Option JString)) (configJson : Option JString) :
      run parsers (past ++ [configJson]) = initConfigData parsers configJson (run parsers past) :=
    List.foldl_concat _ _ _ _
  refine forall_congr' fun past => forall_congr' fun configJson => forall_congr' fun future =>
    imp_congr_right fun _ => ?_
  rw [hcall, Unmixed, initConfigData_eq, initConfigData_eq, Decodes]
  cases hparsed : parsed parsers configJson with
  | none =>
    have hnone : ¬ ∃ json, none = some json ∧ Complete parsers json := by simp
    exact iff_of_true ⟨fun h => absurd h hnone, fun _ => rfl⟩ nofun
  | some json =>
    have hdecodes : (∃ other, some json = some other ∧ Complete parsers other) ↔
        Complete parsers json := by simp
    rw [hdecodes]
    constructor
    · intro h other hother
      cases hother
      exact ⟨fun hcomplete => (readJSON_fields_eq_initial parsers json _ hcomplete).mp
        (h.1 hcomplete), fun hfails => (readJSON_fields_eq_self parsers json _).mp (h.2 hfails)⟩
    · intro h
      obtain ⟨hleft, hnew⟩ := h json rfl
      exact ⟨fun hcomplete => (readJSON_fields_eq_initial parsers json _ hcomplete).mpr
        (hleft hcomplete), fun hfails => (readJSON_fields_eq_self parsers json _).mpr (hnew hfails)⟩

/-- A list of one filter, as it is saved. -/
def savedFilters : JString := utf16 "[\"libapp.so\"]"

/-- A configuration with this list. -/
def filterConfig : JString := utf16 "\x7b\"FILTER_LIST\":\"[\\\"libapp.so\\\"]\"\x7d"

/-- An object with a list of filters alone. -/
def filterJSON : JSONObject where
  string name := if name = .FILTER_LIST then some savedFilters else none
  boolean _ := none
  long _ := none

/-- What the parsers make of this configuration; they throw for everything else. -/
def filterParsers : Parsers where
  newJSONObject text := if text = filterConfig then some filterJSON else none
  fromJson text := if text = savedFilters then some (some [.string (utf16 "libapp.so")]) else none

/-- Such an object is complete. -/
theorem complete_filterJSON : Complete filterParsers filterJSON where
  functions := fun h => absurd rfl h
  filters := by decide +kernel
  strings := by
    intro _ arrayList hlist
    have hone : listOf filterParsers filterJSON .FILTER_LIST =
        some [.string (utf16 "libapp.so")] := by
      decide +kernel
    rw [hone] at hlist
    cases hlist
    decide

/-- The same configuration is read for two packages: its filter is there twice. -/
theorem read_twice : ¬ LastRead filterParsers [some filterConfig, some filterConfig] := by
  have hparsed : parsed filterParsers (some filterConfig) = some filterJSON := by
    have hread : ¬ (filterConfig.length = 0 ∨ filterConfig = DEF_VALUE) := by decide +kernel
    rw [parsed, Option.bind_some, if_neg hread]
    simp [filterParsers]
  intro h
  have hlast := (h [some filterConfig] (some filterConfig) [] rfl).1
    ⟨filterJSON, hparsed, complete_filterJSON⟩
  have hlists := congrArg Statics.mFilterList hlast
  revert hlists
  decide +kernel

end XposedJniTrace.LHook
