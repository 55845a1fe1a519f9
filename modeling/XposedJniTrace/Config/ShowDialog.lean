import XposedJniTrace.Config.InitConfigData
import Mathlib.Data.List.DropRight

/-!
# Choosing what is traced

`showDialogForList` and `saveConfig` of `MainListViewAdapter`: the boxes of the dialog, the text
field, and the object that is saved. The dialog is shown with the serialization mode off, and each
click on a box turns it over. `Gson` is a parameter; the writing of the files and the log are left
out.
-/

namespace XposedJniTrace.LHook

/-- `putString` and its kin of `JSONObject`: the value is coerced as it is read. -/
def JSONObject.putString (json : JSONObject) (name : ConfigKey) (value : JString) : JSONObject :=
  { json with
    string := Function.update json.string name (some value)
    boolean := Function.update json.boolean name none
    long := Function.update json.long name none }

/-- `JSONObject.put` of a boolean. -/
def JSONObject.putBoolean (json : JSONObject) (name : ConfigKey) (value : Bool) : JSONObject :=
  { json with
    string := Function.update json.string name (some (utf16 (toString value)))
    boolean := Function.update json.boolean name (some value)
    long := Function.update json.long name none }

/-- `JSONObject.put` of a long. -/
def JSONObject.putLong (json : JSONObject) (name : ConfigKey) (value : Int) : JSONObject :=
  { json with
    string := Function.update json.string name (some (utf16 (toString value)))
    boolean := Function.update json.boolean name none
    long := Function.update json.long name (some value) }

/-- An object without fields. -/
def JSONObject.empty : JSONObject := ⟨fun _ => none, fun _ => none, fun _ => none⟩

/-- The dialog: which boxes are ticked, and the list of functions. -/
structure Dialog where
  checked : Fin 5 → Bool
  functionsList : List JString

/-- The text `which + ""` of a box. -/
def boxName (which : Fin 5) : JString := utf16 (toString which.val)

/-- A click on a box. `ArrayList.remove` takes the first equal element away. -/
def Dialog.onClick (dialog : Dialog) (which : Fin 5) : Dialog :=
  let isChecked := !dialog.checked which
  { checked := Function.update dialog.checked which isChecked
    functionsList :=
      if isChecked then dialog.functionsList ++ [boxName which]
      else dialog.functionsList.erase (boxName which) }

/-- The dialog behind some clicks. -/
def Dialog.clicked (clicks : List (Fin 5)) : Dialog :=
  clicks.foldl Dialog.onClick ⟨fun _ => false, []⟩

/-- The pieces of a text between `|`. -/
def pieces (inputStr : JString) : List JString := inputStr.splitOn 0x7c

/-- `split("\\|")`: empty pieces at the end are dropped; a text without the separator is one
piece. -/
def split (inputStr : JString) : List JString :=
  if 0x7c ∈ inputStr then (pieces inputStr).rdropWhile (· = []) else [inputStr]

/-- The filters and the functions that the dialog puts into the object. -/
def showDialogForList (obj2str : List JString → JString) (inputStr : JString)
    (clicks : List (Fin 5)) (json : JSONObject) : JSONObject :=
  let json :=
    if inputStr = utf16 "ALL" then json.putBoolean .IS_LISTEN_TO_ALL true
    else
      let json := json.putBoolean .IS_LISTEN_TO_ALL false
      if inputStr.length ≥ 1 then
        let filtersList := split inputStr
        if filtersList.length ≥ 1 then json.putString .FILTER_LIST (obj2str filtersList) else json
      else json
  json.putString .LIST_OF_FUNCTIONS (obj2str (Dialog.clicked clicks).functionsList)

/-- What else is saved: the app, the other boxes, the apk of the module, the time, and the path of
the library in the system, where there is one. -/
structure Saved where
  packageName : JString
  isSystemLoad : Bool
  isSystemPathLoad : Bool
  publicSourceDir : Option JString
  currentTimeMillis : Int
  systemIntoPath : Option JString

/-- `saveConfig`: the fields that the dialog saves. -/
def saveConfig (saved : Saved) (json : JSONObject) : JSONObject :=
  let json := json.putString .PACKAGE_NAME saved.packageName
  let json := json.putBoolean .IS_SYSTEM_LOAD_INTO saved.isSystemLoad
  let json := json.putBoolean .IS_USE_SYSTEM_PATH saved.isSystemPathLoad
  let json := match saved.publicSourceDir with
    | some path => json.putString .MODULE_SO_PATH path
    | none => json
  let json := json.putLong .SAVE_TIME saved.currentTimeMillis
  let json := json.putBoolean .IS_SERIALIZATION false
  match saved.systemIntoPath with
  | some path => json.putString .SYSTEM_INTO_PATH path
  | none => json

/-- The object that is saved when the dialog is confirmed. -/
def savedConfig (obj2str : List JString → JString) (inputStr : JString) (clicks : List (Fin 5))
    (saved : Saved) : JSONObject :=
  saveConfig saved (showDialogForList obj2str inputStr clicks JSONObject.empty)

section Boxes

/-- The names of the boxes differ. -/
theorem boxName_injective : ∀ j k : Fin 5, boxName j = boxName k → j = k := by
  decide +kernel

/-- The list of functions of a dialog holds the names of the ticked boxes, each once. -/
structure Dialog.Lists (dialog : Dialog) : Prop where
  nodup : dialog.functionsList.Nodup
  mem_iff : ∀ name, name ∈ dialog.functionsList ↔
    ∃ k, name = boxName k ∧ dialog.checked k = true

/-- A name is listed exactly when its box is ticked. -/
theorem Dialog.Lists.boxName_mem {dialog : Dialog} (h : dialog.Lists) (k : Fin 5) :
    boxName k ∈ dialog.functionsList ↔ dialog.checked k = true := by
  rw [h.mem_iff]
  constructor
  · intro hmem
    obtain ⟨j, hname, hchecked⟩ := hmem
    rw [boxName_injective k j hname]
    exact hchecked
  · intro hchecked
    exact ⟨k, rfl, hchecked⟩

/-- A box that is ticked adds its name, which is new. -/
theorem Dialog.Lists.onClick_ticked {dialog : Dialog} (h : dialog.Lists) {which : Fin 5}
    (hchecked : dialog.checked which = false) : (dialog.onClick which).Lists := by
  have hnew : boxName which ∉ dialog.functionsList := by
    rw [h.boxName_mem which, hchecked]
    exact Bool.false_ne_true
  have hlist : (dialog.onClick which).functionsList = dialog.functionsList ++ [boxName which] := by
    simp [Dialog.onClick, hchecked]
  have hbox : (dialog.onClick which).checked = Function.update dialog.checked which true := by
    simp [Dialog.onClick, hchecked]
  refine ⟨?_, ?_⟩
  · rw [hlist]
    refine List.nodup_append.mpr ⟨h.nodup, List.pairwise_singleton _ _, ?_⟩
    intro name hname last hlast hsame
    rw [List.mem_singleton] at hlast
    exact hnew (hlast ▸ hsame ▸ hname)
  · intro name
    rw [hlist, hbox, List.mem_append, List.mem_singleton, h.mem_iff]
    constructor
    · intro hname
      rcases hname with ⟨k, hname, hk⟩ | hname
      · refine ⟨k, hname, ?_⟩
        rw [Function.update_apply]
        split_ifs
        · rfl
        · exact hk
      · exact ⟨which, hname, Function.update_self _ _ _⟩
    · intro hname
      obtain ⟨k, hname, hk⟩ := hname
      by_cases hwhich : k = which
      · exact .inr (hwhich ▸ hname)
      · rw [Function.update_of_ne hwhich] at hk
        exact .inl ⟨k, hname, hk⟩

/-- A box that is unticked removes its name, which is there once. -/
theorem Dialog.Lists.onClick_unticked {dialog : Dialog} (h : dialog.Lists) {which : Fin 5}
    (hchecked : dialog.checked which = true) : (dialog.onClick which).Lists := by
  have hlist : (dialog.onClick which).functionsList =
      dialog.functionsList.erase (boxName which) := by
    simp [Dialog.onClick, hchecked]
  have hbox : (dialog.onClick which).checked = Function.update dialog.checked which false := by
    simp [Dialog.onClick, hchecked]
  refine ⟨?_, ?_⟩
  · rw [hlist]
    exact h.nodup.erase _
  · intro name
    rw [hlist, hbox, h.nodup.mem_erase_iff, h.mem_iff]
    constructor
    · intro hname
      obtain ⟨hne, k, hname, hk⟩ := hname
      have hwhich : k ≠ which := fun hsame => hne (hsame ▸ hname)
      exact ⟨k, hname, (Function.update_of_ne hwhich _ _).trans hk⟩
    · intro hname
      obtain ⟨k, hname, hk⟩ := hname
      have hwhich : k ≠ which := by
        intro hsame
        rw [hsame, Function.update_self] at hk
        exact Bool.false_ne_true hk
      rw [Function.update_of_ne hwhich] at hk
      exact ⟨fun hsame => hwhich (boxName_injective k which (hname ▸ hsame)), k, hname, hk⟩

/-- A click keeps the functions a list without repetition. -/
theorem Dialog.Lists.onClick {dialog : Dialog} (h : dialog.Lists) (which : Fin 5) :
    (dialog.onClick which).Lists := by
  cases hchecked : dialog.checked which with
  | false => exact h.onClick_ticked hchecked
  | true => exact h.onClick_unticked hchecked

/-- Behind any clicks the list of functions holds the names of the ticked boxes. -/
theorem lists_clicked (clicks : List (Fin 5)) : (Dialog.clicked clicks).Lists := by
  induction clicks using List.reverseRecOn with
  | nil => exact ⟨List.nodup_nil, by simp [Dialog.clicked]⟩
  | append_singleton clicks which ih =>
    rw [Dialog.clicked, List.foldl_concat]
    exact ih.onClick which

end Boxes

end XposedJniTrace.LHook
