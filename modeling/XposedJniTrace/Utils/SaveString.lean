import Mathlib.Logic.Function.Basic
import XposedJniTrace.Library.Utf16

/-!
# Saving many strings

`saveStringNoClose` and `saveStringClose` of `FileUtils.java`, with the two static streams that they
share. The streams are opened for the file of the first string that gets that far, stay open for the
strings of every other file, and are never opened again once they have been closed. What a call
throws stays in it.

The strings land in their files exactly when they are all saved to one file that exists or can be
created, no string comes behind a close that comes behind a string, and the halves of no pair are
cut apart or held back.
-/

namespace XposedJniTrace.FileUtils

open Utf16

/-- Where a path leads, and whether it has a parent. -/
structure Paths (Path Place : Type*) where
  place : Path → Place
  hasParent : Path → Bool

/-- The static `outStream` and `writer`, with what the encoder holds back. -/
structure Streams (Place : Type*) where
  place : Place
  isOpen : Bool
  held : List UInt16

/-- The files, and the two static streams once they are there. -/
structure State (Place : Type*) where
  files : Place → Option (List UInt8)
  streams : Option (Streams Place)

variable {Path Place : Type*} [DecidableEq Place] (paths : Paths Path Place)

/-- The file is there, or its parent is not null. -/
def findable (files : Place → Option (List UInt8)) (file : Path) : Bool :=
  (files (paths.place file)).isSome || paths.hasParent file

/-- `writer.write(str)` and `writer.flush()`; a closed stream throws. -/
def write (str : List UInt16) (files : Place → Option (List UInt8)) (streams : Streams Place) :
    State Place :=
  if streams.isOpen then
    let r := encode (streams.held ++ str)
    ⟨Function.update files streams.place (some ((files streams.place).getD [] ++ r.1)),
      some { streams with held := r.2 }⟩
  else ⟨files, some streams⟩

/-- Nothing is written of an empty string; what opening the file throws ends the call. -/
def saveStringNoClose (str : Option (List UInt16)) (file : Path) (s : State Place) : State Place :=
  match str with
  | none => s
  | some str =>
    if str.length = 0 then s
    else if findable paths s.files file then
      let files :=
        if (s.files (paths.place file)).isSome then s.files
        else Function.update s.files (paths.place file) (some [])
      write str files (s.streams.getD ⟨paths.place file, true, []⟩)
    else s

/-- The streams are closed, and stay. -/
def saveStringClose (s : State Place) : State Place :=
  { s with streams := s.streams.map fun streams => { streams with isOpen := false } }

/-- A call. -/
inductive Call (Path : Type*) where
  | save (str : Option (List UInt16)) (file : Path)
  | close

/-- The state behind a call. -/
def step (s : State Place) : Call Path → State Place
  | .save str file => saveStringNoClose paths str file s
  | .close => saveStringClose s

/-- The state behind a sequence of calls, the first of the process. -/
def run (files : Place → Option (List UInt8)) (calls : List (Call Path)) : State Place :=
  calls.foldl (step paths) ⟨files, none⟩

/-- The strings that are not empty, with the file that each is saved to. -/
def saved (calls : List (Call Path)) : List (List UInt16 × Path) :=
  calls.filterMap fun call =>
    match call with
    | .save (some str) file => if str.length = 0 then none else some (str, file)
    | _ => none

/-- What a file has in it; a file that is not there has nothing. -/
def content (files : Place → Option (List UInt8)) (place : Place) : List UInt8 :=
  (files place).getD []

/-- Every file ends with what it began with and the strings that were saved to it, in order. -/
def Lands (files : Place → Option (List UInt8)) (calls : List (Call Path)) : Prop :=
  ∀ place, content (run paths files calls).files place =
    content files place ++
      ((saved calls).filter fun save => paths.place save.2 = place).flatMap fun save => utf8 save.1

/-- The calls that save to one file, before they close it, whole pairs. -/
structure OneFile (files : Place → Option (List UInt8)) (calls : List (Call Path)) : Prop where
  /-- The strings are all saved to one file. -/
  one : ∀ save ∈ saved calls, ∀ other ∈ saved calls, paths.place save.2 = paths.place other.2
  /-- The file is there from the start, or the first path has a parent. -/
  found : ∀ first ∈ (saved calls).head?, findable paths files first.2 = true
  /-- There are no strings in front of a close, or none behind it. -/
  closed : ∀ front back, calls = front ++ .close :: back → saved front = [] ∨ saved back = []
  /-- No string ends with the first half of a pair whose other half begins the next one. -/
  uncut : Uncut ((saved calls).map Prod.fst)
  /-- The last string does not end with the first half of a pair. -/
  ended : ∀ last ∈ (saved calls).getLast?, endsHigh last.1 = false

section Runs

variable {paths} {files : Place → Option (List UInt8)}

/-- What two sequences of calls save is saved in that order. -/
theorem saved_append (front back : List (Call Path)) :
    saved (front ++ back) = saved front ++ saved back :=
  List.filterMap_append

/-- No string that counts as saved is empty. -/
theorem saved_ne_nil {calls : List (Call Path)} {save : List UInt16 × Path}
    (h : save ∈ saved calls) :
    save.1 ≠ [] := by
  obtain ⟨call, -, hcall⟩ := List.mem_filterMap.mp h
  cases call with
  | close => cases hcall
  | save str file =>
    cases str with
    | none => cases hcall
    | some str =>
      dsimp only at hcall
      split_ifs at hcall with hlength
      obtain rfl := Option.some.inj hcall
      exact List.ne_nil_of_length_pos (Nat.pos_of_ne_zero hlength)

/-- A call closes, does nothing, or saves a string that is not empty. -/
theorem Call.cases_saved (paths : Paths Path Place) (call : Call Path) :
    call = .close ∨ (call ≠ .close ∧ saved [call] = [] ∧ ∀ s, step paths s call = s) ∨
      ∃ str file, call = .save (some str) file ∧ str ≠ [] ∧ saved [call] = [(str, file)] := by
  cases call with
  | close => exact .inl rfl
  | save str file =>
    have hclose : Call.save str file ≠ .close := by
      intro h
      cases h
    right
    cases str with
    | none => exact .inl ⟨hclose, rfl, fun _ => rfl⟩
    | some str =>
      cases str with
      | nil => exact .inl ⟨hclose, rfl, fun _ => rfl⟩
      | cons u str => exact .inr ⟨u :: str, file, rfl, List.cons_ne_nil _ _, rfl⟩

/-- A string whose file can neither be found nor created is lost. -/
theorem step_of_not_findable {str : List UInt16} {file : Path} {s : State Place}
    (h : findable paths s.files file = false) : step paths s (.save (some str) file) = s := by
  rw [step, saveStringNoClose, h, if_neg Bool.false_ne_true]
  split_ifs
  · rfl
  · rfl

/-- Creating a file adds nothing to what is in it. -/
theorem content_create (s : State Place) (place p : Place) :
    content (if (s.files place).isSome then s.files
      else Function.update s.files place (some [])) p =
      content s.files p := by
  split_ifs with h
  · rfl
  · rw [content, content]
    by_cases hp : p = place
    · subst hp
      rw [Function.update_self]
      rw [Option.not_isSome_iff_eq_none] at h
      rw [h]
      rfl
    · rw [Function.update_of_ne hp]

/-- What is written comes behind what is in the file of the streams. -/
theorem content_write (str : List UInt16) (files : Place → Option (List UInt8))
    (streams : Streams Place) (p : Place) :
    content (write str files streams).files p =
      content files p ++
        if streams.isOpen = true ∧ p = streams.place then
          (encode (streams.held ++ str)).1 else [] := by
  unfold write
  by_cases hopen : streams.isOpen
  · rw [if_pos hopen]
    dsimp only
    rw [content, content]
    by_cases hp : p = streams.place
    · subst hp
      rw [if_pos ⟨hopen, rfl⟩, Function.update_self]
      rfl
    · rw [if_neg fun h => hp h.2, Function.update_of_ne hp, List.append_nil]
  · rw [if_neg hopen, if_neg fun h => hopen h.1, List.append_nil]

/-- Another string is written to the open streams, or to new ones; its file is there then. -/
theorem step_of_findable {str : List UInt16} (hstr : str ≠ []) {file : Path} {s : State Place}
    (h : findable paths s.files file = true) :
    ∃ files', (∀ p, content files' p = content s.files p) ∧ (files' (paths.place file)).isSome ∧
      (∀ p, (s.files p).isSome → (files' p).isSome) ∧
      step paths s (.save (some str) file) =
        write str files' (s.streams.getD ⟨paths.place file, true, []⟩) := by
  have hlength : ¬ str.length = 0 := fun hzero => hstr (List.length_eq_zero_iff.mp hzero)
  refine ⟨if (s.files (paths.place file)).isSome then s.files
    else Function.update s.files (paths.place file) (some []), content_create s _, ?_, ?_, ?_⟩
  · split_ifs with hsome
    · exact hsome
    · rw [Function.update_self]
      rfl
  · intro p hp
    split_ifs with hsome
    · exact hp
    · by_cases hplace : p = paths.place file
      · subst hplace
        exact absurd hp hsome
      · rw [Function.update_of_ne hplace]
        exact hp
  · rw [step, saveStringNoClose, if_neg hlength, if_pos h]

/-- Once the streams are closed nothing is written any more. -/
theorem foldl_closed (calls : List (Call Path)) {s : State Place} {place : Place}
    {held : List UInt16}
    (h : s.streams = some ⟨place, false, held⟩) (p : Place) :
    content (calls.foldl (step paths) s).files p = content s.files p := by
  induction calls generalizing s with
  | nil => rfl
  | cons call calls ih =>
    rw [List.foldl_cons]
    rcases call.cases_saved paths with rfl | ⟨-, -, hsame⟩ | ⟨str, file, rfl, hstr, -⟩
    · refine ih ?_
      rw [step, saveStringClose, h]
      rfl
    · rw [hsame]
      exact ih h
    · cases hfind : findable paths s.files file with
      | false =>
        rw [step_of_not_findable hfind]
        exact ih h
      | true =>
        obtain ⟨files', hcontent, -, -, hstep⟩ := step_of_findable hstr hfind
        rw [hstep, h, ih rfl, content_write, hcontent]
        exact List.append_nil _

/-- The calls in front of the first close. -/
def beforeClose : List (Call Path) → List (Call Path)
  | [] => []
  | .close :: _ => []
  | .save str file :: calls => .save str file :: beforeClose calls

/-- The calls from the first close on. -/
def fromClose : List (Call Path) → List (Call Path)
  | [] => []
  | .close :: calls => .close :: calls
  | .save _ _ :: calls => fromClose calls

/-- The calls in front of the first close, and those from it on, are all of them. -/
theorem beforeClose_append (calls : List (Call Path)) :
    beforeClose calls ++ fromClose calls = calls := by
  induction calls with
  | nil => rfl
  | cons call calls ih =>
    cases call with
    | close => rfl
    | save str file => exact congrArg (Call.save str file :: ·) ih

/-- In front of the first close there is none. -/
theorem close_not_mem_beforeClose (calls : List (Call Path)) : Call.close ∉ beforeClose calls := by
  induction calls with
  | nil => exact List.not_mem_nil
  | cons call calls ih =>
    cases call with
    | close => exact List.not_mem_nil
    | save str file =>
      rw [beforeClose, List.mem_cons, not_or]
      refine ⟨fun h => ?_, ih⟩
      cases h

/-- From the first close on there is nothing, or the close comes first. -/
theorem fromClose_cases (calls : List (Call Path)) :
    fromClose calls = [] ∨ ∃ rest, fromClose calls = .close :: rest := by
  induction calls with
  | nil => exact .inl rfl
  | cons call calls ih =>
    cases call with
    | close => exact .inr ⟨calls, rfl⟩
    | save str file => exact ih

/-- Only the file of the streams is written. -/
theorem foldl_open_frame (calls : List (Call Path)) {s : State Place} {streams : Streams Place}
    (h : s.streams = some streams) {p : Place} (hp : p ≠ streams.place) :
    content (calls.foldl (step paths) s).files p = content s.files p := by
  induction calls generalizing s streams with
  | nil => rfl
  | cons call calls ih =>
    rw [List.foldl_cons]
    rcases call.cases_saved paths with rfl | ⟨-, -, hsame⟩ | ⟨str, file, rfl, hstr, -⟩
    · have hclosed : (step paths s .close).streams = some { streams with isOpen := false } := by
        rw [step, saveStringClose, h]
        rfl
      exact ih hclosed hp
    · rw [hsame]
      exact ih h hp
    · cases hfind : findable paths s.files file with
      | false =>
        rw [step_of_not_findable hfind]
        exact ih h hp
      | true =>
        obtain ⟨files', hcontent, -, -, hstep⟩ := step_of_findable hstr hfind
        obtain ⟨held, hstreams⟩ : ∃ held, (write str files' streams).streams =
            some { streams with held := held } := by
          unfold write
          split_ifs
          · exact ⟨_, rfl⟩
          · exact ⟨streams.held, rfl⟩
        rw [hstep, h, Option.getD_some, ih hstreams hp, content_write,
          if_neg fun hboth => hp hboth.2, List.append_nil, hcontent]

/-- Strings that are all saved to the file of the open streams are written one behind the other, up
to the first close. -/
theorem foldl_open (calls : List (Call Path)) {s : State Place} {place : Place} {held : List UInt16}
    (h : s.streams = some ⟨place, true, held⟩) (hthere : (s.files place).isSome)
    (hheld : encode held = ([], held)) (hplace : ∀ save ∈ saved calls, paths.place save.2 = place) :
    content (calls.foldl (step paths) s).files place =
      content s.files place ++
        (encode (held ++ ((saved (beforeClose calls)).map Prod.fst).flatten)).1 := by
  have hnothing {s : State Place} {held : List UInt16} (hheld : encode held = ([], held)) :
      content s.files place = content s.files place ++ (encode (held ++ [])).1 := by
    rw [List.append_nil, hheld, List.append_nil]
  induction calls generalizing s held with
  | nil => exact hnothing hheld
  | cons call calls ih =>
    have hsaved : saved (call :: calls) = saved [call] ++ saved calls := saved_append [call] calls
    have hrest : ∀ save ∈ saved calls, paths.place save.2 = place := fun save hsave =>
      hplace save (hsaved ▸ List.mem_append_right _ hsave)
    rw [List.foldl_cons]
    rcases call.cases_saved paths with rfl | ⟨hclose, hnone, hsame⟩ | ⟨str, file, rfl, hstr, hone⟩
    · have hclosed : (step paths s .close).streams = some ⟨place, false, held⟩ := by
        rw [step, saveStringClose, h]
        rfl
      rw [foldl_closed calls hclosed]
      exact hnothing hheld
    · have hbefore : saved (beforeClose (call :: calls)) = saved (beforeClose calls) := by
        cases call with
        | close => exact absurd rfl hclose
        | save str file => exact (saved_append [_] (beforeClose calls)).trans (by rw [hnone]; rfl)
      rw [hsame, hbefore]
      exact ih h hthere hheld hrest
    · have hfile : paths.place file = place :=
        hplace (str, file) (hsaved ▸ hone ▸ List.mem_append_left _ List.mem_cons_self)
      have hfind : findable paths s.files file = true := by
        rw [findable, hfile, hthere, Bool.true_or]
      have hbefore : saved (beforeClose (.save (some str) file :: calls)) =
          (str, file) :: saved (beforeClose calls) :=
        (saved_append [_] (beforeClose calls)).trans (by rw [hone]; rfl)
      obtain ⟨files', hcontent, -, hstays, hstep⟩ := step_of_findable hstr hfind
      have hnow := content_write str files' ⟨place, true, held⟩ place
      have hstreams : (write str files' ⟨place, true, held⟩).streams =
          some ⟨place, true, (encode (held ++ str)).2⟩ := rfl
      have hthere' : ((write str files' ⟨place, true, held⟩).files place).isSome := by
        change (Function.update files' place _ place).isSome
        rw [Function.update_self]
        rfl
      rw [if_pos ⟨rfl, rfl⟩, hcontent] at hnow
      rw [hstep, h, Option.getD_some, hbefore, List.map_cons,
        List.flatten_cons, ← List.append_assoc,
        encode_append, ih hstreams hthere' (encode_of_held _) hrest, hnow, List.append_assoc]

/-- Up to the first string whose file can be found or created nothing happens. -/
theorem run_cases (files : Place → Option (List UInt8)) (calls : List (Call Path)) :
    (run paths files calls = ⟨files, none⟩ ∧
        ∀ save ∈ saved calls, findable paths files save.2 = false) ∨
      ∃ front str file back, calls = front ++ .save (some str) file :: back ∧ str ≠ [] ∧
        run paths files front = ⟨files, none⟩ ∧
        (∀ save ∈ saved front, findable paths files save.2 = false) ∧
          findable paths files file = true := by
  have hprepend {call : Call Path} (hcall : step paths ⟨files, none⟩ call = ⟨files, none⟩)
      (calls : List (Call Path)) : run paths files (call :: calls) = run paths files calls := by
    rw [run, List.foldl_cons, hcall, run]
  induction calls with
  | nil => exact .inl ⟨rfl, fun _ h => absurd h List.not_mem_nil⟩
  | cons call calls ih =>
    have hsaved (calls : List (Call Path)) : saved (call :: calls) = saved [call] ++ saved calls :=
      saved_append [call] calls
    -- a call that changes nothing and whose strings are lost goes to the front
    have hskip (hcall : step paths ⟨files, none⟩ call = ⟨files, none⟩)
        (hlost : ∀ save ∈ saved [call], findable paths files save.2 = false) :
        (run paths files (call :: calls) = ⟨files, none⟩ ∧
            ∀ save ∈ saved (call :: calls), findable paths files save.2 = false) ∨
          ∃ front str file back, call :: calls = front ++ .save (some str) file :: back ∧ str ≠ [] ∧
            run paths files front = ⟨files, none⟩ ∧
            (∀ save ∈ saved front, findable paths files save.2 = false) ∧
              findable paths files file = true := by
      rcases ih with ⟨hrun, hall⟩ | ⟨front, str, file, back, rfl, hstr, hrun, hall, hfind⟩
      · refine .inl ⟨(hprepend hcall calls).trans hrun, fun save hsave => ?_⟩
        rw [hsaved, List.mem_append] at hsave
        exact hsave.elim (hlost save) (hall save)
      · refine .inr ⟨call :: front, str, file, back, rfl, hstr,
          (hprepend hcall front).trans hrun, ?_, hfind⟩
        intro save hsave
        rw [hsaved, List.mem_append] at hsave
        exact hsave.elim (hlost save) (hall save)
    rcases call.cases_saved paths with rfl | ⟨-, hnone, hsame⟩ | ⟨str, file, rfl, hstr, hone⟩
    · exact hskip rfl fun _ h => absurd h List.not_mem_nil
    · refine hskip (hsame _) fun save hsave => ?_
      rw [hnone] at hsave
      cases hsave
    · cases hfind : findable paths files file with
      | true =>
        exact .inr ⟨[], str, file, calls, rfl, hstr, rfl,
          fun _ h => absurd h List.not_mem_nil, hfind⟩
      | false =>
        refine hskip (step_of_not_findable hfind) fun save hsave => ?_
        rw [hone] at hsave
        obtain rfl := List.mem_singleton.mp hsave
        exact hfind

/-- The first string that is written opens the streams; the others up to the first close follow
it. -/
theorem run_written {front : List (Call Path)} {str : List UInt16} {file : Path} (hstr : str ≠ [])
    (hfront : run paths files front = ⟨files, none⟩) (hfind : findable paths files file = true)
    (back : List (Call Path)) :
    (∀ p, p ≠ paths.place file →
        content (run paths files (front ++ .save (some str) file :: back)).files p =
          content files p) ∧
      ((∀ save ∈ saved back, paths.place save.2 = paths.place file) →
        content (run paths files (front ++ .save (some str) file :: back)).files
          (paths.place file) =
          content files (paths.place file) ++
            (encode (str :: (saved (beforeClose back)).map Prod.fst).flatten).1) := by
  have hrun : run paths files (front ++ .save (some str) file :: back) =
      back.foldl (step paths) (step paths ⟨files, none⟩ (.save (some str) file)) := by
    rw [run, List.foldl_append, List.foldl_cons]
    exact congrArg (fun s => back.foldl (step paths) (step paths s (.save (some str) file))) hfront
  obtain ⟨files', hcontent, -, -, hstep⟩ := step_of_findable hstr (s := ⟨files, none⟩) hfind
  have hwrite := content_write str files' ⟨paths.place file, true, []⟩
  have hstreams : (write str files' ⟨paths.place file, true, []⟩).streams =
      some ⟨paths.place file, true, (encode str).2⟩ := rfl
  rw [hrun, hstep]
  constructor
  · intro p hp
    rw [Option.getD_none, foldl_open_frame back hstreams hp, hwrite, if_neg fun h => hp h.2,
      List.append_nil, hcontent]
  · intro hplace
    have hthere :
        ((write str files' ⟨paths.place file, true, []⟩).files (paths.place file)).isSome := by
      change (Function.update files' (paths.place file) _ (paths.place file)).isSome
      rw [Function.update_self]
      rfl
    rw [Option.getD_none, foldl_open back hstreams hthere (encode_of_held str) hplace, hwrite,
      if_pos ⟨rfl, rfl⟩, hcontent, List.flatten_cons, encode_append str, List.append_assoc]
    rfl

end Runs

section Exact

variable {paths} {files : Place → Option (List UInt8)} {calls : List (Call Path)}

/-- The bytes due to one string are among those due to its file. -/
theorem Lands.written {save : List UInt16 × Path} (h : Lands paths files calls)
    (hsave : save ∈ saved calls) :
    content (run paths files calls).files (paths.place save.2) ≠
      content files (paths.place save.2) := by
  intro hsame
  have hdue := h (paths.place save.2)
  rw [hsame] at hdue
  have hnil := List.append_right_eq_self.mp hdue.symm
  rw [List.flatMap_eq_nil_iff] at hnil
  refine utf8_ne_nil (saved_ne_nil hsave) (hnil save ?_)
  exact List.mem_filter.mpr ⟨hsave, decide_eq_true rfl⟩

/-- Strings that are all saved to one file are all due there, and none elsewhere. -/
theorem filter_place {saves : List (List UInt16 × Path)} {place : Place}
    (h : ∀ save ∈ saves, paths.place save.2 = place) (p : Place) :
    saves.filter (fun save => paths.place save.2 = p) = if p = place then saves else [] := by
  split_ifs with hp
  · subst hp
    exact List.filter_eq_self.mpr fun save hsave => decide_eq_true (h save hsave)
  · refine List.filter_eq_nil_iff.mpr fun save hsave htrue => hp ?_
    rw [decide_eq_true_eq] at htrue
    rw [← htrue, h save hsave]

/-- Without a string that is written nothing may be due. -/
theorem lands_iff_of_lost (hrun : run paths files calls = ⟨files, none⟩)
    (hlost : ∀ save ∈ saved calls, findable paths files save.2 = false) :
    Lands paths files calls ↔ OneFile paths files calls := by
  constructor
  · intro h
    have hnone : saved calls = [] := by
      refine List.eq_nil_iff_forall_not_mem.mpr fun save hsave => h.written hsave ?_
      rw [hrun]
    refine ⟨?_, ?_, fun front back hcalls => .inl ?_, ?_, ?_⟩
    · rw [hnone]
      exact fun _ h => absurd h List.not_mem_nil
    · rw [hnone]
      exact fun first hfirst => by cases hfirst
    · rw [hcalls, saved_append] at hnone
      exact (List.append_eq_nil_iff.mp hnone).1
    · rw [hnone]
      exact List.IsChain.nil
    · rw [hnone]
      exact fun last hlast => by cases hlast
  · intro h p
    have hnone : saved calls = [] := by
      cases hsaved : saved calls with
      | nil => rfl
      | cons first rest =>
        have hfound := h.found first (by rw [hsaved]; rfl)
        rw [hlost first (hsaved ▸ List.mem_cons_self)] at hfound
        cases hfound
    rw [hrun, hnone]
    exact (List.append_nil _).symm

/-- A string that is not empty counts as saved. -/
theorem saved_save {str : List UInt16} (hstr : str ≠ []) (file : Path) :
    saved [Call.save (some str) file] = [(str, file)] := by
  cases str with
  | nil => exact absurd rfl hstr
  | cons u str => rfl

/-- The strings of the calls, cut at the first one that is written and at the first close behind
it. -/
theorem saved_cut {str : List UInt16} (hstr : str ≠ []) (file : Path)
    (front back : List (Call Path)) :
    saved (front ++ .save (some str) file :: back) =
      saved front ++ (str, file) :: (saved (beforeClose back) ++ saved (fromClose back)) := by
  have hcons : saved (.save (some str) file :: back) =
      saved [.save (some str) file] ++ saved back :=
    saved_append [_] back
  rw [saved_append, hcons, saved_save hstr, ← saved_append (beforeClose back), beforeClose_append]
  rfl

omit [DecidableEq Place] in
/-- A string in front of the first one that is written would be lost. -/
theorem OneFile.nothing_lost {front rest : List (Call Path)}
    (h : OneFile paths files (front ++ rest))
    (hlost : ∀ save ∈ saved front, findable paths files save.2 = false) : saved front = [] := by
  cases hfront : saved front with
  | nil => rfl
  | cons first others =>
    have hfound := h.found first (by rw [saved_append, hfront]; rfl)
    rw [hlost first (hfront ▸ List.mem_cons_self)] at hfound
    cases hfound

omit [DecidableEq Place] in
/-- Behind a string and a close no other string is saved. -/
theorem OneFile.nothing_behind {front back : List (Call Path)} {str : List UInt16} {file : Path}
    (h : OneFile paths files (front ++ .save (some str) file :: back)) (hstr : str ≠ []) :
    saved (fromClose back) = [] := by
  rcases fromClose_cases back with hnil | ⟨rest, hrest⟩
  · rw [hnil]
    rfl
  · have hcut : front ++ .save (some str) file :: back =
        (front ++ .save (some str) file :: beforeClose back) ++ .close :: rest := by
      rw [List.append_assoc, List.cons_append, ← hrest, beforeClose_append]
    rcases h.closed _ _ hcut with hnone | hnone
    · have hmem : (str, file) ∈ saved (front ++ .save (some str) file :: beforeClose back) := by
        rw [saved_append]
        refine List.mem_append_right _ (List.mem_filterMap.mpr ⟨_, List.mem_cons_self, ?_⟩)
        exact if_neg fun hzero => hstr (List.length_eq_zero_iff.mp hzero)
      rw [hnone] at hmem
      cases hmem
    · rw [hrest]
      exact hnone

/-- What is saved behind any close is saved from the first close on. -/
theorem saved_behind_close {inner back : List (Call Path)}
    (hclosed : saved (fromClose (inner ++ .close :: back)) = []) : saved back = [] := by
  have hinside := beforeClose_append (inner ++ .close :: back)
  rcases List.append_eq_append_iff.mp hinside.symm with ⟨rest, hrest, hback⟩ | ⟨rest, -, hrest⟩
  · cases rest with
    | nil =>
      rw [List.nil_append] at hback
      rw [← hback] at hclosed
      exact hclosed
    | cons call rest =>
      obtain ⟨rfl, -⟩ := List.cons.inj hback
      refine absurd (?_ : Call.close ∈ beforeClose (inner ++ .close :: back))
        (close_not_mem_beforeClose _)
      rw [hrest]
      exact List.mem_append_right _ List.mem_cons_self
  · rw [hrest, saved_append] at hclosed
    exact (List.append_eq_nil_iff.mp hclosed).2

/-- A close is in front of the string that is written, where there is no other string, or behind
it. -/
theorem saved_around_close {front back front' back' : List (Call Path)}
    {str : List UInt16} {file : Path}
    (hfront : saved front = []) (hclosed : saved (fromClose back) = [])
    (hcut : front ++ .save (some str) file :: back = front' ++ .close :: back') :
    saved front' = [] ∨ saved back' = [] := by
  rcases List.append_eq_append_iff.mp hcut with ⟨inner, rfl, hinner⟩ | ⟨inner, rfl, -⟩
  · cases inner with
    | nil => cases (List.cons.inj hinner).1
    | cons call inner =>
      obtain ⟨-, rfl⟩ := List.cons.inj hinner
      exact .inr (saved_behind_close hclosed)
  · rw [saved_append] at hfront
    exact .inl (List.append_eq_nil_iff.mp hfront).1

/-- The last string of the list is that of its last pair. -/
theorem ended_map (saves : List (List UInt16 × Path)) :
    (∀ last ∈ (saves.map Prod.fst).getLast?, endsHigh last = false) ↔
      ∀ last ∈ saves.getLast?, endsHigh last.1 = false := by
  rw [List.getLast?_map]
  cases saves.getLast? with
  | none => exact iff_of_true (fun _ h => by cases h) fun _ h => by cases h
  | some last =>
    exact ⟨fun h _ hl => by cases hl; exact h _ rfl, fun h _ hl => by cases hl; exact h _ rfl⟩

omit [DecidableEq Place] in
/-- The condition, with the calls cut at the first string that is written and at the first close
behind it. -/
theorem oneFile_iff {front back : List (Call Path)} {str : List UInt16} {file : Path}
    (hstr : str ≠ [])
    (hlost : ∀ save ∈ saved front, findable paths files save.2 = false)
    (hfind : findable paths files file = true) :
    OneFile paths files (front ++ .save (some str) file :: back) ↔
      (∀ save ∈ saved (front ++ .save (some str) file :: back),
        paths.place save.2 = paths.place file) ∧
        saved front = [] ∧ saved (fromClose back) = [] ∧
        Uncut (str :: (saved (beforeClose back)).map Prod.fst) ∧
        ∀ last ∈ (str :: (saved (beforeClose back)).map Prod.fst).getLast?,
          endsHigh last = false := by
  have hsaved := saved_cut hstr file front back
  constructor
  · intro h
    have hfront := h.nothing_lost hlost
    have hclosed := h.nothing_behind hstr
    have huncut := h.uncut
    have hended := h.ended
    rw [hsaved, hfront, hclosed, List.append_nil, List.nil_append] at huncut hended
    rw [← ended_map] at hended
    refine ⟨fun save hsave => h.one save hsave (str, file) ?_, hfront, hclosed, huncut, hended⟩
    rw [hsaved]
    exact List.mem_append_right _ List.mem_cons_self
  · rintro ⟨hplace, hfront, hclosed, huncut, hended⟩
    rw [hfront, hclosed, List.append_nil, List.nil_append] at hsaved
    refine ⟨fun save hsave other hother => (hplace save hsave).trans (hplace other hother).symm, ?_,
      fun _ _ hcut => saved_around_close hfront hclosed hcut, ?_, ?_⟩
    · rw [hsaved]
      intro first hfirst
      cases hfirst
      exact hfind
    · rw [hsaved]
      exact huncut
    · rw [hsaved, ← ended_map]
      exact hended

/-- No string in the list is empty. -/
theorem saved_map_ne_nil (calls : List (Call Path)) : ∀ x ∈ (saved calls).map Prod.fst, x ≠ [] := by
  intro x hx
  obtain ⟨save, hsave, rfl⟩ := List.mem_map.mp hx
  exact saved_ne_nil hsave

/-- What is written to the one file is what is due there exactly if nothing is lost, nothing comes
behind the close and no pair is cut. -/
theorem due_iff {front back : List (Call Path)} {str : List UInt16} {file : Path} (hstr : str ≠ [])
    (hrun : run paths files front = ⟨files, none⟩) (hfind : findable paths files file = true)
    (hplace : ∀ save ∈ saved (front ++ .save (some str) file :: back),
      paths.place save.2 = paths.place file) :
    content (run paths files (front ++ .save (some str) file :: back)).files (paths.place file) =
        content files (paths.place file) ++
          (saved (front ++ .save (some str) file :: back)).flatMap (fun save => utf8 save.1) ↔
      saved front = [] ∧ saved (fromClose back) = [] ∧
        Uncut (str :: (saved (beforeClose back)).map Prod.fst) ∧
          ∀ last ∈ (str :: (saved (beforeClose back)).map Prod.fst).getLast?,
            endsHigh last = false := by
  have hsaved := saved_cut hstr file front back
  have hback : ∀ save ∈ saved back, paths.place save.2 = paths.place file := by
    intro save hsave
    refine hplace save ?_
    rw [hsaved, ← saved_append, beforeClose_append]
    exact List.mem_append_right _ (List.mem_cons_of_mem _ hsave)
  have hmap : (saved front).map Prod.fst ++ (str :: (saved (beforeClose back)).map Prod.fst) ++
      (saved (fromClose back)).map Prod.fst =
      (saved (front ++ .save (some str) file :: back)).map Prod.fst := by
    rw [hsaved, List.map_append, List.map_cons, List.map_append, List.append_assoc,
      List.cons_append]
  have hall : (saved (front ++ .save (some str) file :: back)).flatMap (fun save => utf8 save.1) =
      ((saved front).map Prod.fst ++ (str :: (saved (beforeClose back)).map Prod.fst) ++
        (saved (fromClose back)).map Prod.fst).flatMap utf8 := by
    rw [hmap, List.flatMap_map]
  have hparts : ∀ x ∈ str :: (saved (beforeClose back)).map Prod.fst, x ≠ [] :=
    List.forall_mem_cons.mpr ⟨hstr, saved_map_ne_nil _⟩
  rw [(run_written hstr hrun hfind back).2 hback, List.append_right_inj, hall,
    encode_flatten_iff (saved_map_ne_nil _) hparts (saved_map_ne_nil _), List.map_eq_nil_iff,
    List.map_eq_nil_iff]

/-- The strings land in their files exactly when they are saved to one file, all before it is
closed, in whole pairs. -/
theorem lands_iff (paths : Paths Path Place) (files : Place → Option (List UInt8))
    (calls : List (Call Path)) : Lands paths files calls ↔ OneFile paths files calls := by
  rcases run_cases files calls with
    ⟨hrun, hlost⟩ | ⟨front, str, file, back, rfl, hstr, hrun, hlost, hfind⟩
  · exact lands_iff_of_lost hrun hlost
  · obtain ⟨hframe, -⟩ := run_written hstr hrun hfind back
    rw [oneFile_iff hstr hlost hfind]
    constructor
    · intro h
      have hplace : ∀ save ∈ saved (front ++ .save (some str) file :: back),
          paths.place save.2 = paths.place file := by
        intro save hsave
        by_contra hother
        exact h.written hsave (hframe _ hother)
      refine ⟨hplace, (due_iff hstr hrun hfind hplace).mp ?_⟩
      rw [h, filter_place hplace, if_pos rfl]
    · rintro ⟨hplace, hrest⟩ p
      rw [filter_place hplace]
      split_ifs with hp
      · subst hp
        exact (due_iff hstr hrun hfind hplace).mpr hrest
      · rw [hframe p hp, List.flatMap_nil, List.append_nil]

end Exact

/-- Files that are places, with parents. -/
def plainPaths : Paths Bool Bool := ⟨id, fun _ => true⟩

/-- A string for one file and one for another: the second is written to the first file. -/
theorem second_file_missed : ¬ Lands plainPaths (fun _ => none)
    [.save (some [0x61]) false, .save (some [0x62]) true] := by
  intro h
  exact absurd (h true) (by decide)

end XposedJniTrace.FileUtils
