import Mathlib.Data.List.Induction
import XposedJniTrace.Library.FileTree

/-!
# Making directories

`makeDir` of `utils/fileUtils.cpp` over a tree of directories and regular files, with `getcwd`,
`access` and `mkdir` as POSIX has them; `mkdir` may fail at any place. The buffer has room for 127
characters.

What `makeDir` answers is right unless it comes to the end of the path and finds a regular file
there, since only that something is there is asked; and the empty path is answered like the current
directory. A current directory that does not fit the buffer is not noticed: the path is then taken
from the root.
-/

namespace XposedJniTrace.MakeDir

open FileTree

/-- The path of the current directory. -/
def pathname (cwd : Place) : List UInt8 :=
  if cwd = [] then [slash] else cwd.reverse.flatMap fun name => slash :: name

/-- `getcwd` into a buffer of so many bytes: the path, or null when it does not fit with its
terminator. -/
def getcwd (size : ℕ) (cwd : Place) : Option (List UInt8) :=
  if (pathname cwd).length < size then some (pathname cwd) else none

/-- The place that a path names. -/
def resolve (t : Tree) (cwd : Place) (path : List UInt8) : Option Place :=
  if path = [] then none
  else t.walk (if path.head? = some slash then [] else cwd) (components path)

/-- `access` for existence. -/
def access (t : Tree) (cwd : Place) (path : List UInt8) : ℤ :=
  if (resolve t cwd path).isSome then 0 else -1

/-- `mkdir`: the last component, in front of trailing slashes, is a name that is not there yet in a
directory. -/
def mkdir (fails : Place → Bool) (t : Tree) (cwd : Place) (path : List UInt8) : Option Tree :=
  match (components path).reverse.dropWhile (· = []) with
  | [] => none
  | name :: rest =>
    match t.walk (if path.head? = some slash then [] else cwd) rest.reverse with
    | none => none
    | some place =>
      if h : t.kind place = some .dir ∧ IsName name ∧ t.kind (name :: place) = none then
        if fails (name :: place) then none else some (t.add name place h.1 h.2.1 h.2.2)
      else none

/-- The loop, with what is in front of the index and what is from it on. -/
def loop (fails : Place → Bool) (cwd : Place) (t : Tree) (before : List UInt8) :
    List UInt8 → ℤ × Tree
  | [] => (0, t)
  | c :: rest =>
    if c = slash then
      if access t cwd before ≠ 0 then
        match mkdir fails t cwd before with
        | none => (-1, t)
        | some t' => loop fails cwd t' (before ++ [c]) rest
      else loop fails cwd t (before ++ [c]) rest
    else loop fails cwd t (before ++ [c]) rest

/-- What is in front of `beginCmpPath`, and the path from there on. The answer of `getcwd` is not
looked at: the buffer stays empty when it fails. -/
def split (cwd : Place) (path : List UInt8) : List UInt8 × List UInt8 :=
  if path.head? ≠ some slash then ((getcwd 128 cwd).getD [] ++ [slash], path)
  else ([slash], path.tail)

/-- The path in the buffer. What is at `path[pathLen]` is the terminator, so that a slash is put
behind every path. -/
def currentPath (cwd : Place) (path : List UInt8) : List UInt8 :=
  (split cwd path).1 ++ (split cwd path).2 ++ [slash]

/-- `makeDir`, unless the buffer is too small. -/
def makeDir (fails : Place → Bool) (t : Tree) (cwd : Place) (path : List UInt8) :
    Option (ℤ × Tree) :=
  if (currentPath cwd path).length ≤ 127 then
    some (loop fails cwd t (split cwd path).1 ((split cwd path).2 ++ [slash]))
  else none

/-- The path made absolute, with a slash behind it. -/
def expanded (cwd : Place) (path : List UInt8) : List UInt8 :=
  (if path.head? ≠ some slash then pathname cwd ++ [slash] else []) ++ path ++ [slash]

/-- The current directory does not come into the buffer in front of a relative path. -/
def Lost (cwd : Place) (path : List UInt8) : Prop :=
  path.head? ≠ some slash ∧ 128 ≤ (pathname cwd).length

instance (cwd : Place) (path : List UInt8) : Decidable (Lost cwd path) :=
  inferInstanceAs (Decidable (_ ∧ _))

/-- The path names a directory. -/
def NamesDirectory (t : Tree) (cwd : Place) (path : List UInt8) : Prop :=
  ∃ place, resolve t cwd path = some place ∧ t.kind place = some .dir

/-- What the tree of a run says of its result. -/
structure AsItSays (t : Tree) (cwd : Place) (path : List UInt8) (result : ℤ × Tree) : Prop where
  answers : result.1 = 0 ∨ result.1 = -1
  made : result.1 = 0 → NamesDirectory result.2 cwd path
  failed : result.1 = -1 → ¬ NamesDirectory result.2 cwd path
  /-- All that has changed is that there are directories at prefixes of the path where nothing
  was. -/
  changed : ∀ place, result.2.kind place = t.kind place ∨
    t.kind place = none ∧ result.2.kind place = some .dir ∧
      ∃ front, front <+: path ∧ resolve result.2 cwd front = some place

/-- `makeDir` does what its result says. -/
def DoesAsItSays (fails : Place → Bool) (t : Tree) (cwd : Place) (path : List UInt8) : Prop :=
  ∃ result, makeDir fails t cwd path = some result ∧ AsItSays t cwd path result

/-- The directory that the path starts from, and its components from there on. -/
def origin (cwd : Place) (path : List UInt8) : Place := if path.head? ≠ some slash then cwd else []

/-- The components of a path from its origin on. -/
def body (path : List UInt8) : List Name :=
  components (if path.head? ≠ some slash then path else path.tail)

/-- The places on the way that components lead, but the last. -/
def passed : Place → List Name → List Place
  | _, [] => []
  | _, [_] => []
  | place, c :: cs => enter place c :: passed (enter place c) cs

/-- The place at the end of the way. -/
def target (place : Place) (cs : List Name) : Place := cs.foldl enter place

/-- A directory is made at a place on the way from the root: nothing is there and `mkdir` works, and
every place in front of it is a directory, or there is nothing yet and a directory can be made. -/
structure MadeOnTheWay (fails : Place → Bool) (t : Tree) (cs : List Name) (place : Place) :
    Prop where
  free : t.kind place = none
  works : fails place = false
  way : ∃ front, front <+: cs ∧ front ≠ [] ∧ target [] front = place ∧
    ∀ other ∈ passed [] front,
      t.kind other = some .dir ∨ t.kind other = none ∧ fails other = false

/-- A regular file at the end of the path is found: every place on the way is a directory, or there
is nothing yet and a directory can be made. -/
structure EndsAtFile (fails : Place → Bool) (t : Tree) (cwd : Place) (path : List UInt8) :
    Prop where
  file : t.kind (target (origin cwd path) (body path)) = some .file
  way : ∀ place ∈ passed (origin cwd path) (body path),
    t.kind place = some .dir ∨ t.kind place = none ∧ fails place = false

/-- What the loop does, place by place. -/
def visit (fails : Place → Bool) (t : Tree) (place : Place) : List Name → ℤ × Tree
  | [] => (0, t)
  | c :: cs =>
    if t.leads place c then visit fails t (enter place c) cs
    else if h : t.kind place = some .dir ∧ IsName c ∧ t.kind (c :: place) = none then
      if fails (c :: place) then (-1, t)
      else visit fails (t.add c place h.1 h.2.1 h.2.2) (c :: place) cs
    else (-1, t)

section Loop

variable {fails : Place → Bool} {t : Tree} {cwd place : Place} {front : List UInt8} {c : Name}

/-- The first component of a list that is left when the empty ones at its end are taken off. -/
theorem walk_stripped {cs : List Name} (h : t.walk [] cs = some place) {name : Name}
    {rest : List Name}
    (hstrip : cs.reverse.dropWhile (· = []) = name :: rest) :
    ∃ place', t.walk [] rest.reverse = some place' ∧ t.leads place' name = true ∧
      enter place' name = place := by
  induction cs using List.reverseRecOn with
  | nil => cases hstrip
  | append_singleton cs c ih =>
    rw [Tree.walk_append] at h
    obtain ⟨place', hfirst, hlast⟩ := Option.bind_eq_some_iff.mp h
    rw [Tree.walk] at hlast
    split_ifs at hlast with hleads
    obtain rfl := Option.some.inj hlast
    rw [List.reverse_concat, List.dropWhile_cons] at hstrip
    split_ifs at hstrip with hc
    · rw [decide_eq_true_eq] at hc
      subst hc
      exact ih hfirst hstrip
    · obtain ⟨rfl, rfl⟩ := List.cons.inj hstrip
      rw [List.reverse_reverse]
      exact ⟨place', hfirst, hleads, rfl⟩

/-- What starts with a slash still does with a component behind it. -/
theorem head_front (habs : (front ++ [slash]).head? = some slash) (c : Name) :
    (front ++ slash :: c).head? = some slash := by
  cases front with
  | nil => rfl
  | cons a front => exact habs

/-- A prefix is there if its last component leads somewhere. -/
theorem access_component (habs : (front ++ [slash]).head? = some slash) (hc : slash ∉ c)
    (hplace : t.walk [] (components front) = some place) :
    access t cwd (front ++ slash :: c) ≠ 0 ↔ ¬ t.leads place c = true := by
  have hnil : front ++ slash :: c ≠ [] :=
    List.append_ne_nil_of_right_ne_nil _ (List.cons_ne_nil _ _)
  rw [access, resolve, if_neg hnil, if_pos (head_front habs c), components_append hc,
    Tree.walk_append, hplace, Option.bind_some, Tree.walk]
  by_cases hleads : t.leads place c = true
  · rw [if_pos hleads]
    exact iff_of_false (fun h => h rfl) fun h => h hleads
  · rw [if_neg hleads]
    exact iff_of_true (by decide) hleads

/-- A prefix that is not there is made if its last component is a name. -/
theorem mkdir_component (habs : (front ++ [slash]).head? = some slash) (hc : slash ∉ c)
    (hplace : t.walk [] (components front) = some place) (hthere : t.kind place ≠ none)
    (hleads : ¬ t.leads place c = true) :
    mkdir fails t cwd (front ++ slash :: c) =
      if h : t.kind place = some .dir ∧ IsName c ∧ t.kind (c :: place) = none then
        if fails (c :: place) then none else some (t.add c place h.1 h.2.1 h.2.2)
      else none := by
  rw [mkdir, if_pos (head_front habs c), components_append hc, List.reverse_concat]
  by_cases hempty : c = []
  · subst hempty
    rw [List.dropWhile_cons, if_pos (decide_eq_true rfl), dif_neg fun h => h.2.1.1 rfl]
    cases hstrip : (components front).reverse.dropWhile (· = []) with
    | nil => rfl
    | cons name rest =>
      obtain ⟨place', hwalk, -, henter⟩ := walk_stripped hplace hstrip
      dsimp only
      rw [hwalk]
      refine dif_neg ?_
      rintro ⟨-, hname, hnone⟩
      rw [Tree.enter_of_isName hname] at henter
      rw [henter] at hnone
      exact hthere hnone
  · rw [List.dropWhile_cons, if_neg (by rw [decide_eq_true_eq]; exact hempty)]
    dsimp only
    rw [List.reverse_reverse, hplace]

/-- Up to the next slash nothing is done. -/
theorem loop_component (t : Tree) (before : List UInt8) (hc : slash ∉ c) (rest : List UInt8) :
    loop fails cwd t before (c ++ slash :: rest) =
      loop fails cwd t (before ++ c) (slash :: rest) := by
  induction c generalizing before with
  | nil => rw [List.nil_append, List.append_nil]
  | cons a c ih =>
    rw [List.mem_cons, not_or] at hc
    rw [List.cons_append, loop, if_neg (Ne.symm hc.1), ih _ hc.2, List.append_assoc,
      List.singleton_append]

/-- The loop goes from place to place. -/
theorem loop_eq_visit {cs : List Name} (hcs : ∀ c ∈ cs, slash ∉ c)
    (habs : (front ++ [slash]).head? = some slash)
    (hplace : t.walk [] (components front) = some place)
    (hthere : t.kind place ≠ none) :
    loop fails cwd t (front ++ [slash]) (cs.flatMap fun c => c ++ [slash]) =
      visit fails t place cs := by
  induction cs generalizing t place front with
  | nil => rfl
  | cons c cs ih =>
    have hc := hcs c List.mem_cons_self
    have hrest : ∀ c ∈ cs, slash ∉ c := fun d hd => hcs d (List.mem_cons_of_mem _ hd)
    have habs' : ((front ++ slash :: c) ++ [slash]).head? = some slash := by
      rw [List.append_assoc, List.cons_append]
      exact head_front habs _
    have hwalk {t' : Tree} (hkeep : t'.walk [] (components front) = some place) {place' : Place}
        (hleads : t'.leads place c = true) (henter : enter place c = place') :
        t'.walk [] (components (front ++ slash :: c)) = some place' := by
      rw [components_append hc, Tree.walk_append, hkeep, Option.bind_some, Tree.walk,
        if_pos hleads, henter]
      rfl
    rw [List.flatMap_cons, List.append_assoc, List.singleton_append, loop_component _ _ hc, loop,
      if_pos rfl, List.append_assoc, List.singleton_append, visit]
    by_cases hleads : t.leads place c = true
    · rw [if_neg fun h => (access_component habs hc hplace).mp h hleads, if_pos hleads]
      refine ih hrest habs' (hwalk hplace hleads rfl) ?_
      rw [Tree.leads, Bool.and_eq_true] at hleads
      exact Option.isSome_iff_ne_none.mp hleads.2
    · rw [if_pos ((access_component habs hc hplace).mpr hleads), if_neg hleads,
        mkdir_component habs hc hplace hthere hleads]
      split_ifs with h hfails
      · rfl
      · have henter := Tree.enter_of_isName h.2.1 place
        have hkind : (t.add c place h.1 h.2.1 h.2.2).kind (c :: place) = some .dir := by
          rw [Tree.kind_add, if_pos rfl]
        have hle := Tree.le_add h.1 h.2.1 h.2.2
        refine ih hrest habs' (hwalk (hle.walk hplace) ?_ henter) ?_
        · rw [Tree.leads, hle _ _ h.1, henter, hkind]
          rfl
        · rw [hkind]
          exact Option.some_ne_none _
      · rfl

end Loop

section Visit

variable (fails : Place → Bool) {t : Tree} {place : Place}

/-- The answer is 0 or -1. -/
theorem visit_answers (t : Tree) (place : Place) (cs : List Name) :
    (visit fails t place cs).1 = 0 ∨ (visit fails t place cs).1 = -1 := by
  induction cs generalizing t place with
  | nil => exact .inl rfl
  | cons c cs ih =>
    rw [visit]
    split_ifs
    · exact ih _ _
    · exact .inr rfl
    · exact ih _ _
    · exact .inr rfl

/-- The tree with the directory that a component names, where nothing was. -/
structure Made (t t' : Tree) (place : Place) (c : Name) : Prop where
  dir : t.kind place = some .dir
  nothing : t.kind (enter place c) = none
  le : t.Le t'
  leads : t'.leads place c = true
  kind : ∀ other, t'.kind other = if other = enter place c then some .dir else t.kind other

/-- The regular files are the same. -/
theorem Made.file_iff {t' : Tree} {c : Name} (h : Made t t' place c) (other : Place) :
    t'.kind other = some .file ↔ t.kind other = some .file := by
  rw [h.kind]
  split_ifs with hother
  · rw [hother, h.nothing]
    exact iff_of_false (fun h => by cases h) fun h => by cases h
  · rfl

/-- Where there is a directory or one can be made, so there was before. -/
theorem Made.way_iff {t' : Tree} {c : Name} (h : Made t t' place c)
    (hworks : fails (enter place c) = false)
    (other : Place) : (t'.kind other = some .dir ∨ t'.kind other = none ∧ fails other = false) ↔
      (t.kind other = some .dir ∨ t.kind other = none ∧ fails other = false) := by
  rw [h.kind]
  split_ifs with hother
  · rw [hother, h.nothing]
    exact iff_of_true (.inl rfl) (.inr ⟨rfl, hworks⟩)
  · rfl

/-- A component leads on, or its directory is made, or the loop ends, which it does in a directory
only if a directory cannot be made. -/
theorem visit_cases (t : Tree) (place : Place) {c : Name} (hc : slash ∉ c) (cs : List Name) :
    (t.leads place c = true ∧ visit fails t place (c :: cs) = visit fails t (enter place c) cs) ∨
      (∃ t', Made t t' place c ∧ fails (enter place c) = false ∧
        visit fails t place (c :: cs) = visit fails t' (enter place c) cs) ∨
      (¬ t.leads place c = true ∧ visit fails t place (c :: cs) = (-1, t) ∧
        (t.kind place = some .dir → t.kind (enter place c) = none ∧
          fails (enter place c) = true)) := by
  rw [visit]
  split_ifs with hleads hmake hfails
  · exact .inl ⟨hleads, rfl⟩
  · rw [Tree.enter_of_isName hmake.2.1]
    exact .inr (.inr ⟨hleads, rfl, fun _ => ⟨hmake.2.2, hfails⟩⟩)
  · have henter := Tree.enter_of_isName hmake.2.1 place
    have hkind := Tree.kind_add hmake.1 hmake.2.1 hmake.2.2
    have hle : t.Le (t.add c place hmake.1 hmake.2.1 hmake.2.2) :=
      Tree.le_add hmake.1 hmake.2.1 hmake.2.2
    refine .inr (.inl ⟨t.add c place hmake.1 hmake.2.1 hmake.2.2,
      ⟨hmake.1, ?_, hle, ?_, ?_⟩, ?_, ?_⟩)
    · rw [henter]
      exact hmake.2.2
    · rw [Tree.leads, hle _ _ hmake.1, henter, hkind, if_pos rfl]
      rfl
    · rw [henter]
      exact hkind
    · rw [henter]
      exact Bool.eq_false_iff.mpr hfails
    · rw [henter]
  · refine .inr (.inr ⟨hleads, rfl, fun hdir => ?_⟩)
    by_cases hname : IsName c
    · have hsome : t.kind (c :: place) ≠ none := fun hnone => hmake ⟨hdir, hname, hnone⟩
      refine absurd ?_ hleads
      rw [Tree.leads, hdir, Tree.enter_of_isName hname]
      exact Option.isSome_iff_ne_none.mpr hsome
    · exact absurd (Tree.leads_of_not_isName hdir hc hname) hleads

/-- Directories are only added. -/
theorem visit_le {cs : List Name} (hcs : ∀ c ∈ cs, slash ∉ c) (t : Tree) (place : Place) :
    t.Le (visit fails t place cs).2 := by
  induction cs generalizing t place with
  | nil => exact Tree.Le.refl t
  | cons c cs ih =>
    have hrest := fun d hd => hcs d (List.mem_cons_of_mem c hd)
    rcases visit_cases fails t place (hcs c List.mem_cons_self) cs with
      ⟨-, heq⟩ | ⟨t', hmade, -, heq⟩ |
      ⟨-, heq, -⟩
    · rw [heq]
      exact ih hrest _ _
    · rw [heq]
      exact hmade.le.trans (ih hrest _ _)
    · rw [heq]
      exact Tree.Le.refl t

/-- The components lead to their end if all was made, and nowhere if not. -/
theorem visit_walk {cs : List Name} (hcs : ∀ c ∈ cs, slash ∉ c) (t : Tree) (place : Place) :
    ((visit fails t place cs).1 = 0 ∧
        (visit fails t place cs).2.walk place cs = some (target place cs)) ∨
      ((visit fails t place cs).1 = -1 ∧ (visit fails t place cs).2.walk place cs = none) := by
  induction cs generalizing t place with
  | nil => exact .inl ⟨rfl, rfl⟩
  | cons c cs ih =>
    have hrest := fun d hd => hcs d (List.mem_cons_of_mem c hd)
    rcases visit_cases fails t place (hcs c List.mem_cons_self) cs with ⟨hleads, heq⟩ |
      ⟨t', hmade, -, heq⟩ | ⟨hleads, heq, -⟩
    · rw [heq, Tree.walk, if_pos ((visit_le fails hrest t _).leads hleads)]
      exact ih hrest t _
    · rw [heq, Tree.walk, if_pos ((visit_le fails hrest t' _).leads hmade.leads)]
      exact ih hrest t' _
    · rw [heq, Tree.walk, if_neg hleads]
      exact .inr ⟨rfl, rfl⟩

/-- Nothing changes but that directories are made on the way. -/
theorem visit_changed {cs : List Name} (hcs : ∀ c ∈ cs, slash ∉ c) (t : Tree)
    (place other : Place) :
    (visit fails t place cs).2.kind other = t.kind other ∨
      t.kind other = none ∧ (visit fails t place cs).2.kind other = some .dir ∧
        ∃ ds, ds <+: cs ∧ ds ≠ [] ∧ (visit fails t place cs).2.walk place ds = some other := by
  induction cs generalizing t place with
  | nil => exact .inl rfl
  | cons c cs ih =>
    have hrest := fun d hd => hcs d (List.mem_cons_of_mem c hd)
    -- a way behind the component is a way from it on
    have hcons {t' : Tree} (hleads : t'.leads place c = true) {ds : List Name} (hds : ds <+: cs)
        (hwalk : t'.walk (enter place c) ds = some other) :
        ∃ ds, ds <+: c :: cs ∧ ds ≠ [] ∧ t'.walk place ds = some other := by
      refine ⟨c :: ds, (List.prefix_cons_inj c).mpr hds, List.cons_ne_nil _ _, ?_⟩
      rw [Tree.walk, if_pos hleads]
      exact hwalk
    rcases visit_cases fails t place (hcs c List.mem_cons_self) cs with ⟨hleads, heq⟩ |
      ⟨t', hmade, -, heq⟩ | ⟨-, heq, -⟩
    · rw [heq]
      refine (ih hrest t (enter place c)).imp_right ?_
      rintro ⟨hnone, hdir, ds, hds, -, hwalk⟩
      exact ⟨hnone, hdir, hcons ((visit_le fails hrest t _).leads hleads) hds hwalk⟩
    · have hleads := (visit_le fails hrest t' (enter place c)).leads hmade.leads
      rw [heq]
      rcases ih hrest t' (enter place c) with hsame | ⟨hnone, hdir, ds, hds, -, hwalk⟩
      · rw [hmade.kind] at hsame
        split_ifs at hsame with hother
        · subst hother
          exact .inr ⟨hmade.nothing, hsame, hcons hleads List.nil_prefix rfl⟩
        · exact .inl hsame
      · rw [hmade.kind] at hnone
        split_ifs at hnone with hother
        exact .inr ⟨hnone, hdir, hcons hleads hds hwalk⟩
    · rw [heq]
      exact .inl rfl

/-- In a regular file the loop ends. -/
theorem visit_of_file {cs : List Name} (hcs : ∀ c ∈ cs, slash ∉ c) (hne : cs ≠ [])
    (hfile : t.kind place ≠ some .dir) : (visit fails t place cs).1 = -1 := by
  cases cs with
  | nil => exact absurd rfl hne
  | cons c cs =>
    rcases visit_cases fails t place (hcs c List.mem_cons_self) cs with
      ⟨hleads, -⟩ | ⟨t', hmade, -, -⟩ |
      ⟨-, heq, -⟩
    · rw [Tree.leads, Bool.and_eq_true, decide_eq_true_eq] at hleads
      exact absurd hleads.1 hfile
    · exact absurd hmade.dir hfile
    · rw [heq]

/-- Directories are found or made all the way to a regular file exactly when one is there and
nothing is in the way. -/
theorem visit_file {cs : List Name} (hcs : ∀ c ∈ cs, slash ∉ c) (hne : cs ≠ []) (t : Tree)
    (place : Place)
    (hdir : t.kind place = some .dir) :
    (visit fails t place cs).1 = 0 ∧
      (visit fails t place cs).2.kind (target place cs) = some .file ↔
      t.kind (target place cs) = some .file ∧
        ∀ other ∈ passed place cs, t.kind other = some .dir ∨ t.kind other = none ∧
          fails other = false := by
  induction cs generalizing t place with
  | nil => exact absurd rfl hne
  | cons c cs ih =>
    have hrest := fun d hd => hcs d (List.mem_cons_of_mem c hd)
    have hstep := visit_cases fails t place (hcs c List.mem_cons_self) cs
    cases cs with
    | nil =>
      have hpassed : ∀ other ∈ passed place [c],
          t.kind other = some .dir ∨ t.kind other = none ∧ fails other = false := by
        intro other hother
        cases hother
      rw [target, List.foldl_cons, List.foldl_nil]
      rcases hstep with ⟨-, heq⟩ | ⟨t', hmade, -, heq⟩ | ⟨-, heq, hblocked⟩
      · rw [heq]
        exact ⟨fun h => ⟨h.2, hpassed⟩, fun h => ⟨rfl, h.1⟩⟩
      · have hkind : (visit fails t' (enter place c) []).2.kind (enter place c) = some .dir := by
          rw [visit, hmade.kind, if_pos rfl]
        rw [heq, hkind, hmade.nothing]
        exact iff_of_false (fun h => by cases h.2) fun h => by cases h.1
      · rw [heq, (hblocked hdir).1]
        exact iff_of_false (fun h => (by decide : (-1 : ℤ) ≠ 0) h.1) fun h => by cases h.1
    | cons d ds =>
      have htarget : target place (c :: d :: ds) = target (enter place c) (d :: ds) := rfl
      have hpassed : passed place (c :: d :: ds) =
          enter place c :: passed (enter place c) (d :: ds) := rfl
      rw [htarget, hpassed, List.forall_mem_cons]
      rcases hstep with ⟨hleads, heq⟩ | ⟨t', hmade, hworks, heq⟩ | ⟨-, heq, hblocked⟩
      · rw [heq]
        by_cases hnext : t.kind (enter place c) = some .dir
        · rw [ih hrest (List.cons_ne_nil _ _) t _ hnext]
          exact and_congr_right fun _ => (and_iff_right (.inl hnext)).symm
        · have hended := visit_of_file fails hrest (List.cons_ne_nil _ _) hnext
          have hthere : t.kind (enter place c) ≠ none := by
            rw [Tree.leads, Bool.and_eq_true] at hleads
            exact Option.isSome_iff_ne_none.mp hleads.2
          rw [hended]
          refine iff_of_false (fun h => (by decide : (-1 : ℤ) ≠ 0) h.1) ?_
          rintro ⟨-, hor, -⟩
          exact hor.elim hnext fun h => hthere h.1
      · have hnext : t'.kind (enter place c) = some .dir := by
          rw [hmade.kind, if_pos rfl]
        rw [heq, ih hrest (List.cons_ne_nil _ _) t' _ hnext, hmade.file_iff]
        simp only [hmade.way_iff fails hworks]
        exact and_congr_right fun _ => (and_iff_right (.inr ⟨hmade.nothing, hworks⟩)).symm
      · rw [heq, (hblocked hdir).1, (hblocked hdir).2]
        refine iff_of_false (fun h => (by decide : (-1 : ℤ) ≠ 0) h.1) ?_
        rintro ⟨-, hor, -⟩
        rcases hor with h | ⟨-, h⟩
        · cases h
        · cases h

/-- From where there is no directory nothing is made. -/
theorem visit_of_not_dir {cs : List Name} (hcs : ∀ c ∈ cs, slash ∉ c)
    (hdir : t.kind place ≠ some .dir) : (visit fails t place cs).2 = t := by
  cases cs with
  | nil => rfl
  | cons c cs =>
    rcases visit_cases fails t place (hcs c List.mem_cons_self) cs with ⟨hleads, -⟩ |
      ⟨t', hmade, -, -⟩ | ⟨-, heq, -⟩
    · rw [Tree.leads, Bool.and_eq_true, decide_eq_true_eq] at hleads
      exact absurd hleads.1 hdir
    · exact absurd hmade.dir hdir
    · rw [heq]

/-- Some first components lead to a place when the first one does, or when it leads on and some of
the others behind it do. -/
theorem exists_way_cons_iff {P : Place → Prop} {place made : Place} {c : Name} {cs : List Name} :
    (∃ front, front <+: c :: cs ∧ front ≠ [] ∧ target place front = made ∧
      ∀ other ∈ passed place front, P other) ↔
      enter place c = made ∨ P (enter place c) ∧
        ∃ front, front <+: cs ∧ front ≠ [] ∧ target (enter place c) front = made ∧
          ∀ other ∈ passed (enter place c) front, P other := by
  constructor
  · rintro ⟨front, hfront, hne, htarget, hway⟩
    obtain ⟨d, ds, rfl⟩ := List.exists_cons_of_ne_nil hne
    obtain ⟨rfl, hds⟩ := List.cons_prefix_cons.mp hfront
    cases ds with
    | nil => exact .inl htarget
    | cons e es =>
      obtain ⟨hfirst, hlater⟩ := List.forall_mem_cons.mp hway
      exact .inr ⟨hfirst, e :: es, hds, List.cons_ne_nil _ _, htarget, hlater⟩
  · rintro (henter | ⟨hfirst, front, hfront, hne, htarget, hway⟩)
    · exact ⟨[c], List.cons_prefix_cons.mpr ⟨rfl, List.nil_prefix⟩, List.cons_ne_nil _ _, henter,
        fun other hother => absurd hother List.not_mem_nil⟩
    · obtain ⟨e, es, rfl⟩ := List.exists_cons_of_ne_nil hne
      exact ⟨c :: e :: es, List.cons_prefix_cons.mpr ⟨rfl, hfront⟩, List.cons_ne_nil _ _, htarget,
        List.forall_mem_cons.mpr ⟨hfirst, hway⟩⟩

/-- A directory is made where nothing was exactly when components in front lead there and nothing is
in the way. -/
theorem visit_makes_iff {cs : List Name} (hcs : ∀ c ∈ cs, slash ∉ c) (t : Tree) {place made : Place}
    (hdir : t.kind place = some .dir) (hfree : t.kind made = none) :
    (visit fails t place cs).2.kind made = some .dir ↔
      fails made = false ∧ ∃ front, front <+: cs ∧ front ≠ [] ∧ target place front = made ∧
        ∀ other ∈ passed place front,
          t.kind other = some .dir ∨ t.kind other = none ∧ fails other = false := by
  induction cs generalizing t place with
  | nil =>
    rw [visit, hfree]
    refine iff_of_false (fun h => by cases h) ?_
    rintro ⟨-, front, hfront, hne, -⟩
    exact hne (List.prefix_nil.mp hfront)
  | cons c cs ih =>
    have hrest := fun d hd => hcs d (List.mem_cons_of_mem c hd)
    rw [exists_way_cons_iff]
    rcases visit_cases fails t place (hcs c List.mem_cons_self) cs with ⟨hleads, heq⟩ |
      ⟨t', hmade, hworks, heq⟩ | ⟨-, heq, hblocked⟩
    · have hthere : t.kind (enter place c) ≠ none := by
        rw [Tree.leads, Bool.and_eq_true] at hleads
        exact Option.isSome_iff_ne_none.mp hleads.2
      have hother : enter place c ≠ made := fun h => hthere (h ▸ hfree)
      rw [heq, or_iff_right hother]
      by_cases hnext : t.kind (enter place c) = some .dir
      · have hpasses : t.kind (enter place c) = some .dir ∨
            t.kind (enter place c) = none ∧ fails (enter place c) = false := .inl hnext
        rw [ih hrest t hnext hfree, and_iff_right hpasses]
      · rw [visit_of_not_dir fails hrest hnext, hfree]
        refine iff_of_false (fun h => by cases h) ?_
        rintro ⟨-, hor, -⟩
        exact hor.elim hnext fun h => hthere h.1
    · have hnext : t'.kind (enter place c) = some .dir := by
        rw [hmade.kind, if_pos rfl]
      rw [heq]
      by_cases hhere : enter place c = made
      · subst hhere
        refine iff_of_true (visit_le fails hrest t' _ _ _ hnext) ⟨hworks, .inl rfl⟩
      · have hfree' : t'.kind made = none := by
          rw [hmade.kind, if_neg (Ne.symm hhere), hfree]
        have hpasses : t.kind (enter place c) = some .dir ∨
            t.kind (enter place c) = none ∧ fails (enter place c) = false :=
          .inr ⟨hmade.nothing, hworks⟩
        rw [ih hrest t' hnext hfree', or_iff_right hhere, and_iff_right hpasses]
        simp only [hmade.way_iff fails hworks]
    · rw [heq, hfree, (hblocked hdir).1, (hblocked hdir).2]
      refine iff_of_false (fun h => by cases h) ?_
      rintro ⟨hworks, henter | ⟨hor, -⟩⟩
      · rw [← henter, (hblocked hdir).2] at hworks
        cases hworks
      · rcases hor with h | ⟨-, h⟩
        · cases h
        · cases h

end Visit

section Paths

variable {t : Tree} {cwd : Place}

/-- A path with a slash behind it is its components, each with one behind it. -/
theorem components_flatMap (path : List UInt8) :
    (components path).flatMap (fun c => c ++ [slash]) = path ++ [slash] := by
  obtain ⟨first, rest, hsplit⟩ := List.exists_cons_of_ne_nil (components_ne_nil path)
  have hjoined : [slash].intercalate (components path) = path := List.intercalate_splitOn slash
  rw [hsplit] at hjoined ⊢
  rw [TextStream.flatMap_separated, hjoined]

/-- The path of the current directory leads to it. -/
theorem walk_pathname (h : t.kind cwd ≠ none) :
    t.walk [] (components (pathname cwd)) = some cwd := by
  unfold pathname
  split_ifs with hroot
  · subst hroot
    change t.walk [] [[], []] = some []
    rw [Tree.walk, if_pos (leads_root t)]
    exact walk_root t
  · exact walk_names h

/-- The path of the current directory is absolute. -/
theorem head_pathname (cwd : Place) : (pathname cwd ++ [slash]).head? = some slash := by
  unfold pathname
  split_ifs with hroot
  · rfl
  · obtain ⟨first, rest, hrev⟩ := List.exists_cons_of_ne_nil (List.reverse_ne_nil_iff.mpr hroot)
    rw [hrev]
    rfl

/-- With the current directory in the buffer, the path made absolute is there. -/
theorem split_of_not_lost {path : List UInt8} (h : ¬ Lost cwd path) :
    split cwd path = (if path.head? ≠ some slash then (pathname cwd ++ [slash], path)
      else ([slash], path.tail)) := by
  rw [split]
  split_ifs with hrelative
  · have hlength : (pathname cwd).length < 128 := by
      by_contra hlong
      exact h ⟨hrelative, Nat.le_of_not_lt hlong⟩
    rw [getcwd, if_pos hlength, Option.getD_some]
  · rfl

/-- With the current directory in the buffer, the path made absolute is there as a whole. -/
theorem currentPath_of_not_lost {path : List UInt8} (h : ¬ Lost cwd path) :
    currentPath cwd path = expanded cwd path := by
  rw [currentPath, split_of_not_lost h, expanded]
  split_ifs with hrelative
  · rfl
  · cases path with
    | nil => exact absurd (fun h => by cases h) hrelative
    | cons a rest =>
      obtain rfl : a = slash := Option.some.inj (not_not.mp hrelative)
      rfl

/-- A path that fits when it is made absolute has the current directory in the buffer. -/
theorem not_lost_of_fits {path : List UInt8} (hfits : (expanded cwd path).length ≤ 127) :
    ¬ Lost cwd path := by
  intro hlost
  rw [expanded, if_pos hlost.1] at hfits
  have hlong := hlost.2
  simp only [List.length_append, List.length_singleton] at hfits
  omega

/-- The loop goes over the components of the path. -/
theorem makeDir_eq (fails : Place → Bool) {path : List UInt8}
    (horigin : t.kind (origin cwd path) = some .dir) (hlost : ¬ Lost cwd path)
    (hfits : (currentPath cwd path).length ≤ 127) :
    makeDir fails t cwd path = some (visit fails t (origin cwd path) (body path)) := by
  have hthere : t.kind (origin cwd path) ≠ none := Option.ne_none_iff_exists'.mpr ⟨_, horigin⟩
  rw [makeDir, if_pos hfits, split_of_not_lost hlost, body]
  rw [origin] at hthere ⊢
  split_ifs at hthere ⊢ with hrelative
  · rw [← components_flatMap path, loop_eq_visit (fun _ h => slash_not_mem_components h)
      (head_pathname cwd) (walk_pathname hthere) hthere]
  · have habs : (([] : List UInt8) ++ [slash]).head? = some slash := rfl
    rw [← components_flatMap path.tail]
    exact congrArg some
      (loop_eq_visit (fun _ h => slash_not_mem_components h) habs (walk_root t) hthere)

/-- Without the current directory in the buffer, the loop goes over the components from the root
on. -/
theorem makeDir_of_lost (fails : Place → Bool) {path : List UInt8} (h : Lost cwd path)
    (hfits : (currentPath cwd path).length ≤ 127) :
    makeDir fails t cwd path = some (visit fails t [] (components path)) := by
  have hnull : getcwd 128 cwd = none := if_neg (Nat.not_lt_of_le h.2)
  have habs : (([] : List UInt8) ++ [slash]).head? = some slash := rfl
  have hthere : t.kind [] ≠ none := Option.ne_none_iff_exists'.mpr ⟨_, t.root⟩
  rw [makeDir, if_pos hfits, split, if_pos h.1, hnull, ← components_flatMap path]
  exact congrArg some
    (loop_eq_visit (fun _ h => slash_not_mem_components h) habs (walk_root t) hthere)

/-- A path leads from its origin on. -/
theorem resolve_eq (t : Tree) (cwd : Place) {path : List UInt8} (hne : path ≠ []) :
    resolve t cwd path = t.walk (origin cwd path) (body path) := by
  rw [resolve, if_neg hne, origin, body]
  by_cases habs : path.head? = some slash
  · obtain ⟨a, rest, rfl⟩ := List.exists_cons_of_ne_nil hne
    obtain rfl : a = slash := Option.some.inj habs
    have hsplit : components (slash :: rest) = [] :: components rest :=
      List.splitOn_append_cons_self [] rest
    rw [if_pos habs, if_neg (not_not.mpr habs), if_neg (not_not.mpr habs), hsplit, Tree.walk,
      if_pos (leads_root t)]
    rfl
  · rw [if_neg habs, if_pos habs, if_pos habs]

/-- What is there all the way is left as it is. -/
theorem visit_of_walk (fails : Place → Bool) {cs : List Name} {place place' : Place}
    (h : t.walk place cs = some place') : visit fails t place cs = (0, t) := by
  induction cs generalizing place with
  | nil => rfl
  | cons c cs ih =>
    rw [Tree.walk] at h
    split_ifs at h with hleads
    rw [visit, if_pos hleads]
    exact ih h

/-- For a directory that exists, nothing is done if its path is not too long. -/
theorem makeDir_existing (fails : Place → Bool) {path : List UInt8} (h : NamesDirectory t cwd path)
    (hlost : ¬ Lost cwd path) :
    makeDir fails t cwd path =
      if (currentPath cwd path).length ≤ 127 then some (0, t) else none := by
  split_ifs with hfits
  · obtain ⟨place, hplace, -⟩ := h
    have hne : path ≠ [] := by
      rintro rfl
      cases hplace
    rw [resolve_eq t cwd hne] at hplace
    obtain ⟨c, cs, hbody⟩ := List.exists_cons_of_ne_nil (components_ne_nil
      (if path.head? ≠ some slash then path else path.tail))
    have horigin : t.kind (origin cwd path) = some .dir := by
      rw [body, hbody, Tree.walk] at hplace
      split_ifs at hplace with hleads
      rw [Tree.leads, Bool.and_eq_true, decide_eq_true_eq] at hleads
      exact hleads.1
    rw [makeDir_eq fails horigin hlost hfits, visit_of_walk fails hplace]
  · rw [makeDir, if_neg hfits]

/-- Components in front of a path are those of a text in front of it. -/
theorem joined_prefix {path : List UInt8} {ds : List Name} (hds : ds <+: components path)
    (hne : ds ≠ []) :
    [slash].intercalate ds <+: path ∧ components ([slash].intercalate ds) = ds := by
  have hslash : ∀ d ∈ ds, slash ∉ d := fun d hd => slash_not_mem_components (hds.subset hd)
  refine ⟨?_, List.splitOn_intercalate slash hslash hne⟩
  obtain ⟨first, rest, rfl⟩ := List.exists_cons_of_ne_nil hne
  obtain ⟨es, hes⟩ := hds
  have htext := components_flatMap path
  rw [← hes, List.flatMap_append, TextStream.flatMap_separated] at htext
  have hlong : [slash].intercalate (first :: rest) <+: path ++ [slash] := by
    rw [← htext, List.append_assoc]
    exact List.prefix_append _ _
  have hlength := congrArg List.length htext
  simp only [List.length_append, List.length_singleton] at hlength
  exact List.prefix_of_prefix_length_le hlong (List.prefix_append _ _) (by omega)

/-- The components in front are those of a prefix. -/
theorem exists_prefix {path : List UInt8} {ds : List Name} (hds : ds <+: body path) (hne : ds ≠ [])
    {other : Place} (hwalk : t.walk (origin cwd path) ds = some other)
    (hother : other ≠ origin cwd path) :
    ∃ front, front <+: path ∧ resolve t cwd front = some other := by
  obtain ⟨hshorter, hcomponents⟩ := joined_prefix hds hne
  by_cases habs : path.head? = some slash
  · cases path with
    | nil => cases habs
    | cons a rest =>
      obtain rfl : a = slash := Option.some.inj habs
      rw [if_neg (not_not.mpr habs)] at hshorter
      refine ⟨slash :: [slash].intercalate ds, (List.prefix_cons_inj slash).mpr hshorter, ?_⟩
      rw [resolve_eq t cwd (List.cons_ne_nil _ _)]
      change t.walk [] (components ([slash].intercalate ds)) = some other
      rw [hcomponents]
      exact hwalk
  · rw [if_pos habs] at hshorter
    rw [origin, if_pos habs] at hwalk hother
    have hfront : [slash].intercalate ds ≠ [] := by
      intro hnil
      have hempty : ds = [[]] := by
        rw [← hcomponents, hnil]
        rfl
      rw [hempty, Tree.walk] at hwalk
      split_ifs at hwalk
      exact hother (Option.some.inj hwalk).symm
    have hhead : ([slash].intercalate ds).head? ≠ some slash := by
      intro hhead
      obtain ⟨rest, hrest⟩ := hshorter
      rw [← hrest, List.head?_append_of_ne_nil _ hfront] at habs
      exact habs hhead
    refine ⟨[slash].intercalate ds, hshorter, ?_⟩
    rw [resolve_eq t cwd hfront, origin, body, if_pos hhead, if_pos hhead, hcomponents]
    exact hwalk

end Paths

section Result

variable (fails : Place → Bool) (t : Tree) {cwd : Place} {path : List UInt8}

/-- The components have no slash inside. -/
theorem slash_not_mem_body (path : List UInt8) : ∀ c ∈ body path, slash ∉ c :=
  fun _ hc => slash_not_mem_components hc

/-- The visit starts at a directory. -/
theorem kind_origin {t : Tree} (hcwd : t.kind cwd = some .dir) (path : List UInt8) :
    t.kind (origin cwd path) = some .dir := by
  unfold origin
  split_ifs
  · exact hcwd
  · exact t.root

/-- For the empty path nothing is done, and zero is answered. -/
theorem visit_empty {t : Tree} (hcwd : t.kind cwd = some .dir) :
    (visit fails t (origin cwd []) (body [])).1 = 0 := by
  have hstay := Tree.leads_of_not_isName hcwd List.not_mem_nil fun hname => hname.1 rfl
  change (visit fails t cwd [[]]).1 = 0
  rw [visit, if_pos hstay]
  rfl

/-- The path names a directory exactly if all was made and there is a directory at its end. -/
theorem namesDirectory_visit (hne : path ≠ []) :
    NamesDirectory (visit fails t (origin cwd path) (body path)).2 cwd path ↔
      (visit fails t (origin cwd path) (body path)).1 = 0 ∧
        (visit fails t (origin cwd path) (body path)).2.kind
          (target (origin cwd path) (body path)) =
          some .dir := by
  rw [NamesDirectory, resolve_eq _ _ hne]
  rcases visit_walk fails (slash_not_mem_body path) t (origin cwd path) with
    ⟨hzero, hsome⟩ | ⟨hminus, hnone⟩
  · rw [hsome, hzero]
    constructor
    · intro h
      obtain ⟨place, hplace, hdir⟩ := h
      exact ⟨rfl, Option.some.inj hplace ▸ hdir⟩
    · intro h
      exact ⟨_, rfl, h.2⟩
  · rw [hnone, hminus]
    refine iff_of_false (fun h => ?_) fun h => absurd h.1 (by decide)
    obtain ⟨place, hplace, -⟩ := h
    cases hplace

/-- What is at the end of the path is there if all was made. -/
theorem kind_target_visit (hcwd : t.kind cwd = some .dir)
    (hzero : (visit fails t (origin cwd path) (body path)).1 = 0) :
    (visit fails t (origin cwd path) (body path)).2.kind
      (target (origin cwd path) (body path)) ≠ none := by
  have horigin := kind_origin hcwd path
  rcases visit_walk fails (slash_not_mem_body path) t (origin cwd path) with
    ⟨-, hsome⟩ | ⟨hminus, -⟩
  · exact Tree.kind_walk hsome
      (Option.ne_none_iff_exists'.mpr ⟨_, visit_le fails (slash_not_mem_body path) t _ _ _ horigin⟩)
  · rw [hzero] at hminus
    exact absurd hminus (by decide)

/-- What has changed is a directory that was not there and that a prefix of the path leads to. -/
theorem visit_changes (hcwd : t.kind cwd = some .dir) (place : Place) :
    (visit fails t (origin cwd path) (body path)).2.kind place = t.kind place ∨
      t.kind place = none ∧ (visit fails t (origin cwd path) (body path)).2.kind place = some .dir ∧
        ∃ front, front <+: path ∧
          resolve (visit fails t (origin cwd path) (body path)).2 cwd front = some place := by
  refine (visit_changed fails (slash_not_mem_body path) t (origin cwd path) place).imp_right ?_
  rintro ⟨hnone, hdir, ds, hds, hds', hsome⟩
  refine ⟨hnone, hdir, exists_prefix hds hds' hsome ?_⟩
  rintro rfl
  rw [kind_origin hcwd path] at hnone
  cases hnone

/-- What is answered is right exactly when the path is not empty and there is no regular file at its
end where all was made. -/
theorem asItSays_visit_iff (hcwd : t.kind cwd = some .dir) :
    AsItSays t cwd path (visit fails t (origin cwd path) (body path)) ↔
      path ≠ [] ∧ ¬ ((visit fails t (origin cwd path) (body path)).1 = 0 ∧
        (visit fails t (origin cwd path) (body path)).2.kind
          (target (origin cwd path) (body path)) =
          some .file) := by
  constructor
  · intro h
    have hne : path ≠ [] := by
      rintro rfl
      obtain ⟨place, hplace, -⟩ := h.made (visit_empty fails hcwd)
      cases hplace
    refine ⟨hne, ?_⟩
    rintro ⟨hzero, hfile⟩
    have hdir := ((namesDirectory_visit fails t hne).mp (h.made hzero)).2
    rw [hfile] at hdir
    cases hdir
  · rintro ⟨hne, hnot⟩
    refine ⟨visit_answers fails t _ _, fun hzero => ?_, fun hminus hnames => ?_,
      visit_changes fails t hcwd⟩
    · refine (namesDirectory_visit fails t hne).mpr ⟨hzero, ?_⟩
      cases hkind : (visit fails t (origin cwd path) (body path)).2.kind
          (target (origin cwd path) (body path)) with
      | none => exact absurd hkind (kind_target_visit fails t hcwd hzero)
      | some k =>
        cases k with
        | dir => rfl
        | file => exact absurd ⟨hzero, hkind⟩ hnot
    · have hzero := ((namesDirectory_visit fails t hne).mp hnames).1
      rw [hminus] at hzero
      exact absurd hzero (by decide)

end Result

/-- What `makeDir` answers is right exactly when the path is not empty and no regular file is found
at its end. -/
theorem doesAsItSays_iff (fails : Place → Bool) (t : Tree) {cwd : Place} {path : List UInt8}
    (hcwd : t.kind cwd = some .dir) (hfits : (expanded cwd path).length ≤ 127) :
    DoesAsItSays fails t cwd path ↔ path ≠ [] ∧ ¬ EndsAtFile fails t cwd path := by
  have horigin := kind_origin hcwd path
  have hlost := not_lost_of_fits hfits
  rw [← currentPath_of_not_lost hlost] at hfits
  have hfile := visit_file fails (slash_not_mem_body path) (components_ne_nil _) t
    (origin cwd path) horigin
  have hends : EndsAtFile fails t cwd path ↔
      t.kind (target (origin cwd path) (body path)) = some .file ∧
        ∀ place ∈ passed (origin cwd path) (body path),
          t.kind place = some .dir ∨ t.kind place = none ∧ fails place = false :=
    ⟨fun h => ⟨h.file, h.way⟩, fun h => ⟨h.1, h.2⟩⟩
  rw [hends, ← hfile, ← asItSays_visit_iff fails t hcwd, DoesAsItSays,
    makeDir_eq fails horigin hlost hfits]
  constructor
  · intro h
    obtain ⟨result, hresult, hsays⟩ := h
    obtain rfl := Option.some.inj hresult
    exact hsays
  · intro h
    exact ⟨_, rfl, h⟩

/-- A root directory, with a regular file `f` in it. -/
def oneFile : Tree where
  entries := AList.insert [[0x66]] .file (AList.insert [] .dir ∅)
  root := by decide
  parent name place h := by
    rcases (AList.mem_insert _).mp h with heq | hmem
    · rw [(List.cons.inj heq).2]
      decide
    · rcases (AList.mem_insert _).mp hmem with heq | hempty
      · cases heq
      · exact absurd hempty (AList.notMem_empty _)
  named name place h := by
    rcases (AList.mem_insert _).mp h with heq | hmem
    · rw [(List.cons.inj heq).1]
      decide
    · rcases (AList.mem_insert _).mp hmem with heq | hempty
      · cases heq
      · exact absurd hempty (AList.notMem_empty _)

/-- A directory is made in the root. -/
theorem made_in_root : DoesAsItSays (fun _ => false) oneFile [] [slash, 0x64] := by
  refine (doesAsItSays_iff _ oneFile (by decide) (by decide)).mpr ⟨by decide, fun h => ?_⟩
  exact absurd h.file (by decide)

/-- A regular file is taken for a directory. -/
theorem file_taken : ¬ DoesAsItSays (fun _ => false) oneFile [] [slash, 0x66] := by
  rintro ⟨result, hresult, h⟩
  have hzero : makeDir (fun _ => false) oneFile [] [slash, 0x66] = some (0, oneFile) := rfl
  rw [hzero] at hresult
  obtain rfl := Option.some.inj hresult
  obtain ⟨place, hplace, hdir⟩ := h.made rfl
  have hfile : resolve oneFile [] [slash, 0x66] = some [[0x66]] := by decide
  rw [hfile] at hplace
  obtain rfl := Option.some.inj hplace
  exact absurd hdir (by decide)

end XposedJniTrace.MakeDir
