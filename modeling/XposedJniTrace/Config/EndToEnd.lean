import XposedJniTrace.Config.LastRead
import XposedJniTrace.Config.ShowDialog
import XposedJniTrace.Trace.JavaValue
import XposedJniTrace.Trace.StopsClean

/-!
# What is selected and what is traced

The way from the dialog to the tracers: the object that is saved, what `initConfigData` reads of it
in a new process, `startHookJni` with the lists that `jlist2clist` makes, and the callers that
`isLister` accepts. `Gson` and `JSONObject` are parameters that read back what they wrote. A path
contains a text when it contains the bytes that JNI gives for it. A piece of the filter that is
empty and stands in front of one that is not is kept, and is contained in every path.
-/

namespace XposedJniTrace.LHook

open Mylibc (CString c_str ascii)
open scoped List

/-- What JNI makes of a Java string. -/
structure JniStrings where
  GetStringUTFChars : JString → CString
  ascii : ∀ s, (∀ c ∈ s, 0 < c ∧ c < 0x80) →
    (GetStringUTFChars s).bytes = s.map UInt16.toUInt8

/-- `parse::jstring2str`. -/
def JniStrings.jstring2str (jni : JniStrings) (jstr : JString) : List UInt8 :=
  (jni.GetStringUTFChars jstr).bytes

/-- The items of a list; JNI takes no null string. -/
def jlist2clist (jni : JniStrings) (jlist : List (Option JString)) : Option (List (List UInt8)) :=
  jlist.mapM fun item => item.map jni.jstring2str

/-- The native method that is called with the static fields: `startHookJni` over its copies of the
two lists. -/
def NativeEngine.startHookJni (jni : JniStrings) (statics : Statics) (file : Streams.File)
    (installs : Streams.Hook → Bool) (s : Streams.State) : Option Streams.State := do
  let filter_list ← jlist2clist jni statics.mFilterList
  let function_list ← jlist2clist jni (statics.mFunctionList.map some)
  pure (Streams.startHookJni statics.isListenAll filter_list function_list file installs s)

/-- What one of the five functions hooks. -/
def function : Fin 5 → Streams.Hook
  | 0 => .tracer .jniTrace
  | 1 => .tracer .stringHandlerHook
  | 2 => .registerNative
  | 3 => .linker
  | 4 => .invoke

/-- The start of one of the five functions, from the lists and the stream that `startHookJni`
has. -/
def startFunction (isListenerAll : Bool) (filter_list : List (List UInt8)) (saveOs : Option ℕ)
    (installs : Streams.Hook → Bool) (s : Streams.State) (k : Fin 5) : Streams.State :=
  match k with
  | 0 =>
    Streams.Jnitrace.startjnitrace isListenerAll [Streams.CORE_SO_NAME] filter_list
      saveOs installs s
  | 1 =>
    Streams.stringHandler.hookStrHandler isListenerAll [Streams.CORE_SO_NAME] filter_list
      saveOs installs
      s
  | 2 => Streams.invokePrintf.HookJNIRegisterNative saveOs installs s
  | 3 => Streams.linkerCallBack.hookLinkerCallBack saveOs installs s
  | 4 => Streams.invokePrintf.HookJNIInvoke saveOs installs s

/-- The box of a tracer. -/
def box : Tracer → Fin 5
  | .jniTrace => 0
  | .stringHandlerHook => 1

/-- A path contains one of the pieces of the text that are not empty. -/
def Mentions (jni : JniStrings) (inputStr : JString) (path : CString) : Prop :=
  ∃ piece ∈ pieces inputStr, piece ≠ [] ∧ (jni.GetStringUTFChars piece).bytes <:+: path.bytes

/-- An empty piece stands in front of one that is not empty. -/
def EmptyInFront (inputStr : JString) : Prop :=
  ∃ front behind, pieces inputStr = front ++ [] :: behind ∧ ∃ piece ∈ behind, piece ≠ []

/-- What was written is read back: the saved object, as far as it has the kind of value that is
read, and every list of strings, which is written in brackets. -/
structure RoundTrips (parsers : Parsers) (obj2str : List JString → JString)
    (configJson : JString) (saved : JSONObject) : Prop where
  gson : ∀ list, parsers.fromJson (obj2str list) = some (some (list.map .string))
  brackets : ∀ list, (obj2str list).head? = some 0x5b
  json : ∃ json, parsed parsers (some configJson) = some json ∧
    (∀ name, json.string name = saved.string name) ∧
    (∀ name b, saved.boolean name = some b → json.boolean name = some b)

section Selected

variable (jni : JniStrings) (parsers : Parsers) (configJson inputStr : JString)
  (clicks : List (Fin 5)) (path : CString) (installs : Streams.Hook → Bool) (s : Streams.State)

/-- What is traced: the functions that are started are those of the ticked boxes, which leave what
they leave one after the other, and a tracer among them accepts a path exactly when it contains a
piece of the text that is not empty. -/
structure Traced (isListenerAll : Bool) (filter_list : List (List UInt8)) (after : Streams.State) :
    Prop where
  started : after.started =
    s.started ++ ((List.finRange 5).filter (Dialog.clicked clicks).checked).map function
  left : after = ((List.finRange 5).filter (Dialog.clicked clicks).checked).foldl
    (startFunction isListenerAll filter_list (some s.time) installs) s
  accepted : ∀ t : Tracer, (Dialog.clicked clicks).checked (box t) = true → ∀ match_so_name,
    (t.isLister (after.config t) match_so_name path).1 = true ↔ Mentions jni inputStr path

/-- What was selected is traced, once the saved configuration has been read by a new process. -/
def SelectedIsTraced : Prop :=
  ∃ isListenerAll filter_list after,
    NativeEngine.startHookJni jni (initConfigData parsers (some configJson) Statics.initial) .opened
      installs s = some after ∧
    Traced jni inputStr clicks path installs s isListenerAll filter_list after

/-- No tracer is ticked, no empty piece is kept, or the path contains a piece anyway. -/
def Selective : Prop :=
  (∃ t, (Dialog.clicked clicks).checked (box t) = true) → EmptyInFront inputStr →
    Mentions jni inputStr path

end Selected

section Read

variable {jni : JniStrings} {parsers : Parsers} {obj2str : List JString → JString}
  {inputStr : JString} {clicks : List (Fin 5)} {saved : Saved} {json : JSONObject}

/-- The filters that are saved: none for an empty text, nor for one of which no piece is kept. -/
def kept (inputStr : JString) : List JString := if inputStr = [] then [] else split inputStr

/-- What `saveConfig` puts leaves the choice of the dialog as it is. -/
theorem saveConfig_functions (saved : Saved) (json : JSONObject) :
    (saveConfig saved json).string .LIST_OF_FUNCTIONS = json.string .LIST_OF_FUNCTIONS := by
  rcases saved with ⟨_, _, _, _ | _, _, _ | _⟩ <;> rfl

/-- Saving the other fields keeps the filters. -/
theorem saveConfig_filters (saved : Saved) (json : JSONObject) :
    (saveConfig saved json).string .FILTER_LIST = json.string .FILTER_LIST := by
  rcases saved with ⟨_, _, _, _ | _, _, _ | _⟩ <;> rfl

/-- Saving the other fields keeps the mode. -/
theorem saveConfig_mode (saved : Saved) (json : JSONObject) :
    (saveConfig saved json).boolean .IS_LISTEN_TO_ALL = json.boolean .IS_LISTEN_TO_ALL := by
  rcases saved with ⟨_, _, _, _ | _, _, _ | _⟩ <;> rfl

/-- The functions that are saved are those clicked last. -/
theorem savedConfig_functions :
    (savedConfig obj2str inputStr clicks saved).string .LIST_OF_FUNCTIONS =
      some (obj2str (Dialog.clicked clicks).functionsList) := by
  rw [savedConfig, saveConfig_functions]
  rfl

/-- The mode that is saved is the default one. -/
theorem savedConfig_mode (hall : inputStr ≠ utf16 "ALL") :
    (savedConfig obj2str inputStr clicks saved).boolean .IS_LISTEN_TO_ALL = some false := by
  rw [savedConfig, saveConfig_mode, showDialogForList, if_neg hall]
  dsimp only
  split_ifs
  · rfl
  · rfl
  · rfl

/-- The filters that are saved are the pieces that are kept. -/
theorem savedConfig_filters (hall : inputStr ≠ utf16 "ALL") :
    (savedConfig obj2str inputStr clicks saved).string .FILTER_LIST =
      if kept inputStr = [] then none else some (obj2str (kept inputStr)) := by
  rw [savedConfig, saveConfig_filters, showDialogForList, if_neg hall, kept]
  dsimp only
  cases inputStr with
  | nil => rfl
  | cons c inputStr =>
    have hlength : (c :: inputStr).length ≥ 1 := Nat.le_add_left 1 inputStr.length
    rw [if_pos hlength, if_neg (List.cons_ne_nil c inputStr)]
    cases split (c :: inputStr) with
    | nil => rfl
    | cons piece rest => rfl

/-- A list that is written is no default text. -/
theorem RoundTrips.ne_def {configJson : JString} {config : JSONObject}
    (h : RoundTrips parsers obj2str configJson config) (list : List JString) :
    obj2str list ≠ DEF_VALUE := by
  intro hdef
  have hfirst := h.brackets list
  rw [hdef] at hfirst
  exact absurd hfirst (by decide +kernel)

/-- A key that holds a list gives the list back. -/
theorem RoundTrips.listOf {configJson : JString} {config : JSONObject}
    (h : RoundTrips parsers obj2str configJson config) {name : ConfigKey} {list : List JString}
    (hname : json.string name = some (obj2str list)) :
    listOf parsers json name = some (list.map .string) := by
  have htext : json.optString name DEF_VALUE = obj2str list := by
    rw [JSONObject.optString, hname, Option.getD_some]
  rw [LHook.listOf, htext, if_pos (h.ne_def list), GsonUtils.str2obj, h.gson]

/-- Strings can all be cast to strings. -/
theorem castAll_string (list : List JString) :
    castAll (list.map .string) = (list.map some, true) := by
  induction list with
  | nil => rfl
  | cons item list ih =>
    rw [List.map_cons, castAll, ih]
    rfl

/-- What a new process reads: the mode, the filters that were kept, and the list of functions. -/
theorem RoundTrips.initConfigData {configJson : JString}
    (h : RoundTrips parsers obj2str configJson (savedConfig obj2str inputStr clicks saved))
    (hall : inputStr ≠ utf16 "ALL") :
    (initConfigData parsers (some configJson) Statics.initial).isListenAll = false ∧
    (initConfigData parsers (some configJson) Statics.initial).mFilterList =
      (kept inputStr).map some ∧
    (initConfigData parsers (some configJson) Statics.initial).mFunctionList =
      (Dialog.clicked clicks).functionsList := by
  obtain ⟨json, hparsed, hstring, hboolean⟩ := h.json
  have hread : LHook.initConfigData parsers (some configJson) Statics.initial =
      readJSON parsers json Statics.initial := by
    rw [initConfigData_eq, hparsed]
  rw [hread, readJSON_eq]
  have hmode : json.optBoolean .IS_LISTEN_TO_ALL false = false := by
    rw [JSONObject.optBoolean, hboolean _ _ (savedConfig_mode hall)]
    rfl
  refine ⟨hmode, ?_, ?_⟩
  · change [] ++ (filtersOf parsers json).1 = _
    rw [List.nil_append, filtersOf, hmode, if_neg Bool.false_ne_true]
    have hfilters := (hstring .FILTER_LIST).trans (savedConfig_filters hall)
    by_cases hkept : kept inputStr = []
    · rw [if_pos hkept] at hfilters
      have hnone : LHook.listOf parsers json .FILTER_LIST = none := by
        have htext : json.optString .FILTER_LIST DEF_VALUE = DEF_VALUE := by
          rw [JSONObject.optString, hfilters, Option.getD_none]
        rw [LHook.listOf, htext, if_neg (not_not_intro rfl)]
      rw [hnone, hkept]
      rfl
    · rw [if_neg hkept] at hfilters
      rw [h.listOf hfilters, Option.getD_some, castAll_string]
  · change [] ++ functionsOf parsers json = _
    have hfunctions := h.listOf ((hstring .LIST_OF_FUNCTIONS).trans savedConfig_functions)
    rw [List.nil_append, functionsOf, hfunctions, Option.getD_some, List.map_map]
    exact List.map_id _

end Read

section Pieces

/-- What stands behind a piece ends where the list ends. -/
theorem behind_concat {l front behind : List JString} {last piece : JString}
    (hsplit : l ++ [last] = front ++ [] :: behind) (hpiece : piece ∈ behind) :
    ∃ rest, behind = rest ++ [last] ∧ l = front ++ [] :: rest := by
  rcases List.eq_nil_or_concat behind with rfl | ⟨rest, x, rfl⟩
  · cases hpiece
  · have hsame : l ++ [last] = (front ++ [] :: rest) ++ [x] := by simpa using hsplit
    obtain ⟨hl, hx⟩ := List.append_inj' hsame rfl
    cases hx
    exact ⟨rest, List.concat_eq_append, hl⟩

/-- An empty piece is left when the empty ones at the end are dropped: one that stands in front of a
piece that is not empty. -/
theorem nil_mem_rdropWhile (l : List JString) :
    [] ∈ l.rdropWhile (· = []) ↔
      ∃ front behind, l = front ++ [] :: behind ∧ ∃ piece ∈ behind, piece ≠ [] := by
  induction l using List.reverseRecOn with
  | nil => simp
  | append_singleton l last ih =>
    by_cases hlast : last = []
    · rw [List.rdropWhile_concat_pos _ _ _ (by simpa using hlast), ih]
      constructor
      · intro h
        obtain ⟨front, behind, hsplit, piece, hpiece, hne⟩ := h
        exact ⟨front, behind ++ [last], by rw [hsplit, List.append_assoc]; rfl, piece,
          List.mem_append_left _ hpiece, hne⟩
      · intro h
        obtain ⟨front, behind, hsplit, piece, hpiece, hne⟩ := h
        obtain ⟨rest, rfl, hl⟩ := behind_concat hsplit hpiece
        refine ⟨front, rest, hl, piece, ?_, hne⟩
        rcases List.mem_append.mp hpiece with hrest | hx
        · exact hrest
        · exact absurd ((List.mem_singleton.mp hx).trans hlast) hne
    · rw [List.rdropWhile_concat_neg _ _ _ (by simpa using hlast), List.mem_append,
        List.mem_singleton]
      constructor
      · intro h
        rcases h with h | h
        · obtain ⟨front, behind, rfl⟩ := List.append_of_mem h
          exact ⟨front, behind ++ [last], by simp, last, by simp, hlast⟩
        · exact absurd h.symm hlast
      · intro h
        obtain ⟨front, behind, hsplit, piece, hpiece, -⟩ := h
        obtain ⟨rest, -, hl⟩ := behind_concat hsplit hpiece
        rw [hl]
        exact .inl (List.mem_append_right _ List.mem_cons_self)

/-- A piece that is not empty is left when the empty ones at the end are dropped. -/
theorem mem_rdropWhile {l : List JString} {piece : JString} (hne : piece ≠ []) :
    piece ∈ l.rdropWhile (· = []) ↔ piece ∈ l := by
  induction l using List.reverseRecOn with
  | nil => simp
  | append_singleton l last ih =>
    by_cases hlast : last = []
    · rw [List.rdropWhile_concat_pos _ _ _ (by simpa using hlast), ih, List.mem_append,
        List.mem_singleton, hlast]
      exact (or_iff_left hne).symm
    · rw [List.rdropWhile_concat_neg _ _ _ (by simpa using hlast)]

/-- A text without the separator is one piece. -/
theorem pieces_of_not_mem {inputStr : JString} (h : 0x7c ∉ inputStr) :
    pieces inputStr = [inputStr] := by
  refine List.splitOnP_eq_singleton ?_
  intro c hc
  exact beq_false_of_ne fun hsame => h (hsame ▸ hc)

/-- In a text of one piece nothing stands in front of another piece. -/
theorem not_emptyInFront {inputStr piece : JString} (h : pieces inputStr = [piece]) :
    ¬ EmptyInFront inputStr := by
  intro hfront
  obtain ⟨front, behind, hsplit, other, hother, -⟩ := hfront
  obtain ⟨rest, -, hl⟩ := behind_concat (l := []) (h.symm.trans hsplit) hother
  exact List.append_ne_nil_of_right_ne_nil front (List.cons_ne_nil [] rest) hl.symm

/-- An empty filter is kept exactly when an empty piece stands in front of one that is not empty. -/
theorem nil_mem_kept (inputStr : JString) : [] ∈ kept inputStr ↔ EmptyInFront inputStr := by
  rw [kept, split]
  split_ifs with hnil hsep
  · have hpieces : pieces inputStr = [inputStr] := pieces_of_not_mem (hnil ▸ List.not_mem_nil)
    exact iff_of_false List.not_mem_nil (not_emptyInFront hpieces)
  · exact nil_mem_rdropWhile (pieces inputStr)
  · have hpieces := pieces_of_not_mem hsep
    exact iff_of_false (fun h => hnil (List.mem_singleton.mp h).symm) (not_emptyInFront hpieces)

/-- The filters that are not empty are the pieces that are not empty. -/
theorem mem_kept {inputStr piece : JString} (hne : piece ≠ []) :
    piece ∈ kept inputStr ↔ piece ∈ pieces inputStr := by
  rw [kept, split]
  split_ifs with hnil hsep
  · rw [hnil]
    exact iff_of_false List.not_mem_nil fun h => hne (List.mem_singleton.mp h)
  · exact mem_rdropWhile hne
  · rw [pieces_of_not_mem hsep]

end Pieces

section Start

variable {jni : JniStrings}

/-- A list of strings is taken over as it is. -/
theorem jlist2clist_some (list : List JString) :
    jlist2clist jni (list.map some) = some (list.map jni.jstring2str) := by
  rw [jlist2clist, List.mapM_map]
  exact List.mapM_pure

/-- The names of the boxes are ASCII. -/
theorem boxName_ascii (k : Fin 5) : ∀ c ∈ boxName k, 0 < c ∧ c < 0x80 := by
  have hall : ((boxName k).all fun c => 0 < c ∧ c < 0x80) = true := by
    revert k
    decide +kernel
  intro c hc
  exact of_decide_eq_true (List.all_eq_true.mp hall c hc)

/-- The name of a box has the bytes that `startHookJni` looks for. -/
theorem jstring2str_boxName (k : Fin 5) : jni.jstring2str (boxName k) = ascii (toString k.val) := by
  rw [JniStrings.jstring2str, jni.ascii (boxName k) (boxName_ascii k)]
  revert k
  decide +kernel

/-- The numbers of the functions differ. -/
theorem ascii_injective : ∀ j k : Fin 5,
    ascii (toString j.val) = ascii (toString k.val) → j = k := by
  decide +kernel

/-- The list of functions that comes to `startHookJni` has a function exactly when its box is
ticked. -/
theorem has_boolean_functions {dialog : Dialog} (h : dialog.Lists) (k : Fin 5) :
    Streams.has_boolean (dialog.functionsList.map jni.jstring2str) (toString k.val) =
      dialog.checked k := by
  rw [Bool.eq_iff_iff, ← h.boxName_mem k, Streams.has_boolean, List.any_map, List.any_eq_true]
  constructor
  · intro hany
    obtain ⟨name, hname, hsame⟩ := hany
    obtain ⟨j, rfl, -⟩ := (h.mem_iff name).mp hname
    have hbytes := eq_of_beq hsame
    rw [jstring2str_boxName] at hbytes
    exact ascii_injective j k hbytes ▸ hname
  · intro hname
    exact ⟨boxName k, hname, beq_iff_eq.mpr (jstring2str_boxName k)⟩

/-- `startHookJni` starts the functions of its list, one after the other. -/
theorem startHookJni_eq (isListenerAll : Bool) (filter_list function_list : List (List UInt8))
    (installs : Streams.Hook → Bool) (s : Streams.State) :
    Streams.startHookJni isListenerAll filter_list function_list .opened installs s =
      ((List.finRange 5).filter fun k => Streams.has_boolean function_list (toString k.val)).foldl
        (startFunction isListenerAll filter_list (some s.time) installs) s := by
  rw [List.foldl_filter]
  rfl

/-- Each start puts its function behind those that have been started. -/
theorem started_foldl (isListenerAll : Bool) (filter_list : List (List UInt8)) (os : ℕ)
    (installs : Streams.Hook → Bool) (ks : List (Fin 5)) (s : Streams.State) :
    (ks.foldl (startFunction isListenerAll filter_list (some os) installs) s).started =
      s.started ++ ks.map function := by
  induction ks generalizing s with
  | nil => rw [List.foldl_nil, List.map_nil, List.append_nil]
  | cons k ks ih =>
    have hone : (startFunction isListenerAll filter_list (some os) installs s k).started =
        s.started ++ [function k] := by
      match k with
      | 0 | 1 | 2 | 3 | 4 => rfl
    rw [List.foldl_cons, ih, hone, List.map_cons, List.append_assoc, List.singleton_append]

end Start

section Accepted

variable {jni : JniStrings} {inputStr : JString}

/-- The empty string is contained in every path. -/
theorem jstring2str_nil : jni.jstring2str [] = [] := jni.ascii [] (by simp)

/-- Reading up to the terminator loses nothing of a C string. -/
theorem c_str_bytes (s : CString) : (c_str s.bytes).bytes = s.bytes := by
  refine List.takeWhile_eq_self_iff.mpr ?_
  intro c hc
  exact decide_eq_true fun hzero => s.nonzero (hzero ▸ hc)

/-- With the filters that are kept, the paths that are accepted are all of them when an empty one is
kept, and else those that contain a piece that is not empty. -/
theorem containsOne_kept (path : CString) :
    ContainsOne ((kept inputStr).map jni.jstring2str) path ↔
      EmptyInFront inputStr ∨ Mentions jni inputStr path := by
  rw [← nil_mem_kept]
  constructor
  · intro h
    obtain ⟨name, hname, hcontained⟩ := h
    obtain ⟨piece, hpiece, rfl⟩ := List.mem_map.mp hname
    by_cases hne : piece = []
    · exact .inl (hne ▸ hpiece)
    · rw [JniStrings.jstring2str, c_str_bytes] at hcontained
      exact .inr ⟨piece, (mem_kept hne).mp hpiece, hne, hcontained⟩
  · intro h
    rcases h with hnil | ⟨piece, hpiece, hne, hcontained⟩
    · refine ⟨jni.jstring2str [], List.mem_map_of_mem hnil, ?_⟩
      rw [jstring2str_nil]
      exact List.nil_infix
    · refine ⟨jni.jstring2str piece, List.mem_map_of_mem ((mem_kept hne).mpr hpiece), ?_⟩
      rw [JniStrings.jstring2str, c_str_bytes]
      exact hcontained

/-- A tracer is started by the function of its box. -/
theorem starts_box (isListenerAll : Bool) (filter_list function_list : List (List UInt8))
    (installs : Streams.Hook → Bool) (t : Tracer) :
    (Streams.Event.start isListenerAll filter_list function_list .opened installs).starts
      (.tracer t) =
      Streams.has_boolean function_list (toString (box t).val) := by
  cases t with
  | jniTrace => exact Bool.or_false _
  | stringHandlerHook => exact Bool.or_false _

/-- What a tracer whose box is ticked accepts. -/
theorem accepts_of_checked {clicks : List (Fin 5)} {t : Tracer}
    (ht : (Dialog.clicked clicks).checked (box t) = true) (installs : Streams.Hook → Bool)
    (s : Streams.State) (match_so_name : List UInt8) (path : CString) :
    (t.isLister ((Streams.startHookJni false ((kept inputStr).map jni.jstring2str)
      ((Dialog.clicked clicks).functionsList.map jni.jstring2str) .opened installs s).config t)
        match_so_name path).1 = true ↔
      EmptyInFront inputStr ∨ Mentions jni inputStr path := by
  rw [Streams.startHookJni_config, starts_box, has_boolean_functions (lists_clicked clicks), ht,
    if_pos rfl, Streams.isLister_eq, isLister_of_filter rfl]
  exact containsOne_kept path

end Accepted

section Composition

variable {jni : JniStrings} {parsers : Parsers} {obj2str : List JString → JString}
  {configJson inputStr : JString} {clicks : List (Fin 5)} {saved : Saved}
  (h : RoundTrips parsers obj2str configJson (savedConfig obj2str inputStr clicks saved))
  (hall : inputStr ≠ utf16 "ALL")

include h hall

/-- What comes to `startHookJni`: the filters that are kept, and the names of the ticked boxes. -/
theorem startHookJni_read (installs : Streams.Hook → Bool) (s : Streams.State) :
    NativeEngine.startHookJni jni
      (initConfigData parsers (some configJson) Statics.initial) .opened installs s =
      some (Streams.startHookJni false ((kept inputStr).map jni.jstring2str)
        ((Dialog.clicked clicks).functionsList.map jni.jstring2str) .opened installs s) := by
  obtain ⟨hmode, hfilters, hfunctions⟩ := h.initConfigData hall
  rw [NativeEngine.startHookJni, hmode, hfilters, hfunctions, jlist2clist_some, jlist2clist_some]
  rfl

/-- Where an empty piece is kept, a path that is rightly accepted contains another one. -/
theorem mentions_of_traced {path : CString} {installs : Streams.Hook → Bool} {s : Streams.State}
    {t : Tracer} (htraced : SelectedIsTraced jni parsers configJson inputStr clicks path installs s)
    (ht : (Dialog.clicked clicks).checked (box t) = true) (hfront : EmptyInFront inputStr) :
    Mentions jni inputStr path := by
  obtain ⟨isListenerAll, filter_list, after, hafter, htraced⟩ := htraced
  rw [startHookJni_read h hall, Option.some.injEq] at hafter
  subst hafter
  exact (htraced.accepted t ht []).mp ((accepts_of_checked ht installs s [] path).mpr (.inl hfront))

end Composition

namespace Written

/-- The two characters that have to be escaped between quotation marks. -/
def escape (c : UInt16) : JString := if c = 0x22 ∨ c = 0x5c then [0x5c, c] else [c]

/-- A string in a JSON text. -/
def quote (item : JString) : JString := 0x22 :: item.flatMap escape ++ [0x22]

/-- The items of a JSON list with the closing bracket. -/
def items : List JString → JString
  | [] => [0x5d]
  | [item] => quote item ++ [0x5d]
  | item :: next :: list => quote item ++ 0x2c :: items (next :: list)

/-- A list of strings as it is written. -/
def obj2str (list : List JString) : JString := 0x5b :: items list

/-- Reading behind the bracket, with the item that is open, if any, whether a character of it is
escaped, and the items that are read. -/
def readItems : Option (JString × Bool) → List JString → JString → Option (List JString)
  | _, _, [] => none
  | none, list, c :: rest =>
    if c = 0x5d then some list
    else readItems (if c = 0x22 then some ([], false) else none) list rest
  | some (item, true), list, c :: rest => readItems (some (item ++ [c], false)) list rest
  | some (item, false), list, c :: rest =>
    if c = 0x22 then readItems none (list ++ [item]) rest
    else if c = 0x5c then readItems (some (item, true)) list rest
    else readItems (some (item ++ [c], false)) list rest

/-- The parsers of one saved text. -/
def parsers (configJson : JString) (saved : JSONObject) : Parsers where
  newJSONObject text := if text = configJson then some saved else none
  fromJson text :=
    if text.head? = some 0x5b then
      (readItems none [] text.tail).map fun list => some (list.map .string)
    else none

/-- An item is read to its end. -/
theorem readItems_item (item s : JString) (list : List JString) (rest : JString) :
    readItems (some (item, false)) list (s.flatMap escape ++ 0x22 :: rest) =
      readItems none (list ++ [item ++ s]) rest := by
  induction s generalizing item with
  | nil => rw [List.flatMap_nil, List.nil_append, readItems, if_pos rfl, List.append_nil]
  | cons c s ih =>
    have hnext := ih (item ++ [c])
    rw [List.append_assoc] at hnext
    rw [List.flatMap_cons, escape]
    split_ifs with hc
    · change readItems (some (item, false)) list
        (0x5c :: c :: (s.flatMap escape ++ 0x22 :: rest)) = _
      rw [readItems, if_neg (by decide), if_pos rfl, readItems]
      exact hnext
    · obtain ⟨hquote, hescape⟩ := not_or.mp hc
      change readItems (some (item, false)) list (c :: (s.flatMap escape ++ 0x22 :: rest)) = _
      rw [readItems, if_neg hquote, if_neg hescape]
      exact hnext

/-- Behind the bracket a list is read back. -/
theorem readItems_items (l list : List JString) :
    readItems none list (items l) = some (list ++ l) := by
  induction l generalizing list with
  | nil => exact congrArg some (List.append_nil list).symm
  | cons item l ih =>
    have hquote : ∀ rest, readItems none list (quote item ++ rest) =
        readItems none (list ++ [item]) rest := by
      intro rest
      change readItems none list (0x22 :: (item.flatMap escape ++ [0x22] ++ rest)) = _
      rw [readItems, if_neg (by decide), if_pos rfl, List.append_assoc]
      exact readItems_item [] item list rest
    cases l with
    | nil =>
      rw [items, hquote]
      rfl
    | cons next l =>
      rw [items, hquote, readItems, if_neg (by decide), if_neg (by decide), ih, List.append_assoc]
      rfl

/-- Every list of strings is read back, and so is the object, whose text begins with a brace. -/
theorem roundTrips {configJson : JString} (hbrace : configJson.head? = some 0x7b)
    (saved : JSONObject) : RoundTrips (parsers configJson saved) obj2str configJson saved where
  gson list := by
    change Option.map _ (readItems none [] (items list)) = _
    rw [readItems_items]
    rfl
  brackets _ := rfl
  json := by
    refine ⟨saved, ?_, fun _ => rfl, fun _ _ hb => hb⟩
    have hneither : ¬ (configJson.length = 0 ∨ configJson = DEF_VALUE) := by
      intro heither
      rcases heither with hnil | hdef
      · rw [List.length_eq_zero_iff.mp hnil] at hbrace
        cases hbrace
      · rw [hdef] at hbrace
        exact absurd hbrace (by decide +kernel)
    rw [parsed, Option.bind_some, if_neg hneither]
    exact if_pos rfl

end Written

/-- A unit of the modified encoding has no zero byte. -/
theorem modifiedUtf8_ne_zero (c : UInt16) : 0 ∉ Java.modifiedUtf8 c.toNat := by
  have hc : c.toNat < 2 ^ 16 := c.toNat_lt
  have hbyte : ∀ n, 0 < n → n < 256 → (0 : UInt8) ≠ UInt8.ofNat n := by
    intro n hpos hn hzero
    have hnat := congrArg UInt8.toNat hzero
    rw [UInt8.toNat_ofNat', Nat.mod_eq_of_lt hn] at hnat
    exact hpos.ne hnat
  rw [Java.modifiedUtf8]
  split_ifs with hone htwo
  · exact fun h => hbyte _ hone.1 (by omega) (List.mem_singleton.mp h)
  · intro h
    rcases List.mem_cons.mp h with h | h
    · exact hbyte _ (by omega) (by omega) h
    · exact hbyte _ (by omega) (by omega) (List.mem_singleton.mp h)
  · intro h
    rcases List.mem_cons.mp h with h | h
    · exact hbyte _ (by omega) (by omega) h
    · rcases List.mem_cons.mp h with h | h
      · exact hbyte _ (by omega) (by omega) h
      · exact hbyte _ (by omega) (by omega) (List.mem_singleton.mp h)

/-- The modified encoding, unit by unit. -/
def modifiedUtf8 : JniStrings where
  GetStringUTFChars s := ⟨s.flatMap fun c => Java.modifiedUtf8 c.toNat, by
    intro hzero
    obtain ⟨c, -, hc⟩ := List.mem_flatMap.mp hzero
    exact modifiedUtf8_ne_zero c hc⟩
  ascii s hs := by
    change (s.flatMap fun c => Java.modifiedUtf8 c.toNat) = s.map UInt16.toUInt8
    induction s with
    | nil => rfl
    | cons c s ih =>
      obtain ⟨hpos, hlt⟩ := hs c List.mem_cons_self
      rw [List.flatMap_cons, List.map_cons, Java.modifiedUtf8,
        if_pos ⟨UInt16.lt_iff_toNat_lt.mp hpos, UInt16.lt_iff_toNat_lt.mp hlt⟩,
        ih fun d hd => hs d (List.mem_cons_of_mem c hd)]
      rfl

/-- What was selected is traced exactly when no tracer is ticked, no empty piece of the text stands
in front of one that is not empty, or the path contains a piece anyway. -/
theorem selectedIsTraced_iff (jni : JniStrings) {parsers : Parsers}
    {obj2str : List JString → JString} {configJson inputStr : JString} {clicks : List (Fin 5)}
    {saved : Saved}
    (h : RoundTrips parsers obj2str configJson (savedConfig obj2str inputStr clicks saved))
    (hall : inputStr ≠ utf16 "ALL") (path : CString) (installs : Streams.Hook → Bool)
    (s : Streams.State) :
    SelectedIsTraced jni parsers configJson inputStr clicks path installs s ↔
      Selective jni inputStr clicks path := by
  constructor
  · intro htraced hticked hfront
    obtain ⟨t, ht⟩ := hticked
    exact mentions_of_traced h hall htraced ht hfront
  · intro hselective
    refine ⟨false, (kept inputStr).map jni.jstring2str, _,
      startHookJni_read h hall installs s, ?_, ?_, ?_⟩
    · simp only [startHookJni_eq, has_boolean_functions (lists_clicked clicks), started_foldl]
    · simp only [startHookJni_eq, has_boolean_functions (lists_clicked clicks)]
    · intro t ht match_so_name
      rw [accepts_of_checked ht]
      constructor
      · intro haccepted
        rcases haccepted with hfront | hmentions
        · exact hselective ⟨t, ht⟩ hfront
        · exact hmentions
      · exact .inr

/-- What is saved for an app, but for the text and the boxes. -/
def someApp : Saved :=
  ⟨utf16 "com.app", false, false, some (utf16 "/data/app/base.apk"), 0, none⟩

/-- The text of the object that is saved for it, with a list of filters and the first box ticked. -/
def someJson (filters : String) : JString :=
  utf16 "\x7b" ++ utf16 ("\"IS_LISTEN_TO_ALL\":false,\"FILTER_LIST\":" ++ filters ++
    ",\"LIST_OF_FUNCTIONS\":\"[\\\"0\\\"]\",\"PACKAGE_NAME\":\"com.app\"" ++
    ",\"IS_SYSTEM_LOAD_INTO\":false,\"IS_USE_SYSTEM_PATH\":false" ++
    ",\"MODULE_SO_PATH\":\"\\/data\\/app\\/base.apk\",\"SAVE_TIME\":0,\"IS_SERIALIZATION\":false\x7d")

/-- The text of the configuration starts with a brace. -/
theorem head_someJson (filters : String) : (someJson filters).head? = some 0x7b := rfl

/-- With a filter of one piece, and the box of the first tracer, what was selected is traced. -/
theorem selected_libapp :
    SelectedIsTraced modifiedUtf8
      (Written.parsers (someJson "\"[\\\"libapp.so\\\"]\"")
        (savedConfig Written.obj2str (utf16 "libapp.so") [0] someApp))
      (someJson "\"[\\\"libapp.so\\\"]\"") (utf16 "libapp.so") [0]
      (c_str (ascii "/data/app/lib/libapp.so")) (fun _ => true) Streams.initial := by
  have hread := Written.roundTrips (head_someJson "\"[\\\"libapp.so\\\"]\"")
    (savedConfig Written.obj2str (utf16 "libapp.so") [0] someApp)
  have hpieces : pieces (utf16 "libapp.so") = [utf16 "libapp.so"] :=
    pieces_of_not_mem (by decide +kernel)
  refine (selectedIsTraced_iff modifiedUtf8 hread (by decide +kernel) _ _ _).mpr ?_
  exact fun _ hfront => absurd hfront (not_emptyInFront hpieces)

/-- A text that begins with the separator: every path is accepted, though it does not contain the
piece. -/
theorem traced_everywhere :
    ¬ SelectedIsTraced modifiedUtf8
      (Written.parsers (someJson "\"[\\\"\\\",\\\"libapp.so\\\"]\"")
        (savedConfig Written.obj2str (utf16 "|libapp.so") [0] someApp))
      (someJson "\"[\\\"\\\",\\\"libapp.so\\\"]\"") (utf16 "|libapp.so") [0]
      (c_str (ascii "/system/lib64/libc.so")) (fun _ => true) Streams.initial := by
  intro htraced
  have hread := Written.roundTrips (head_someJson "\"[\\\"\\\",\\\"libapp.so\\\"]\"")
    (savedConfig Written.obj2str (utf16 "|libapp.so") [0] someApp)
  have hpieces : pieces (utf16 "|libapp.so") = [[], utf16 "libapp.so"] := by decide +kernel
  have hfront : EmptyInFront (utf16 "|libapp.so") :=
    ⟨[], [utf16 "libapp.so"], hpieces, utf16 "libapp.so", List.mem_cons_self, by decide +kernel⟩
  have hticked : (Dialog.clicked [0]).checked (box .jniTrace) = true := by decide +kernel
  obtain ⟨piece, hpiece, hne, hcontained⟩ :=
    mentions_of_traced hread (by decide +kernel) htraced hticked hfront
  rw [hpieces] at hpiece
  rcases List.mem_cons.mp hpiece with rfl | hpiece
  · exact hne rfl
  · rw [List.mem_singleton] at hpiece
    subst hpiece
    have hfound := (Mylibc.my_strstr_isSome _ _).mpr hcontained
    exact absurd hfound (by decide +kernel)

end XposedJniTrace.LHook
