import XposedJniTrace.Library.LinkTree

/-!
# Recursive deletion

`delFiles` of `FileUtils.java` over a tree of directories, regular files and symbolic links, where
`isDirectory` and `listFiles` follow links, at most a given number on the way, and `delete` takes
away what its path names itself, unless that is a directory with something in it. A file is its path
from the root.

What is behind a link is not told from what is below a directory: the children of the directory that
a link leads to are deleted before the link. And of an empty directory that is to stay, `false` is
returned.
-/

namespace XposedJniTrace.FileUtils

open FileTree (Name Place IsName slash)
open LinkTree

/-- `File.isDirectory`, which follows links. -/
def isDirectory (links : ℕ) (t : Tree) (path : List Name) : Bool :=
  match t.walk links [] path with
  | none => false
  | some place => t.entry place = some .dir

/-- What `listFiles` answers for a directory. -/
def listFiles (links : ℕ) (t : Tree) (path : List Name) : List Name :=
  match t.walk links [] path with
  | none => []
  | some place => t.children place

/-- `File.delete`: the place that is deleted, and the tree without it. -/
def delete (links : ℕ) (t : Tree) (path : List Name) : Option (Place × Tree) :=
  match t.locate links path with
  | none => none
  | some place =>
    if t.entry place ≠ none ∧ t.children place = [] then some (place, t.cut place) else none

/-- What a call returns and leaves, and what it has deleted, each by its path and with its place. -/
structure Outcome where
  result : Bool
  tree : Tree
  removed : List (List Name × Place)

/-- A call behind which the outcome of a child's call is taken. -/
def Outcome.take (o child : Outcome) : Outcome :=
  ⟨child.result, child.tree, o.removed ++ child.removed⟩

/-- The loop over the children, and whether it has returned. -/
def eachChild (delFiles : Tree → List Name → Option Outcome) (path : List Name) :
    List Name → Outcome → Option (Bool × Outcome)
  | [], o => some (false, o)
  | name :: names, o =>
    match delFiles o.tree (path ++ [name]) with
    | none => none
    | some child =>
      if child.result = false then some (true, o.take child)
      else eachChild delFiles path names (o.take child)

/-- What is behind the loop. -/
def delSelf (links : ℕ) (path : List Name) (isDelSelf : Bool) (o : Outcome) : Outcome :=
  if isDelSelf then
    match delete links o.tree path with
    | none => ⟨false, o.tree, o.removed⟩
    | some (place, tree) => ⟨true, tree, o.removed ++ [(path, place)]⟩
  else o

/-- `delFiles`, with calls at most so deep. -/
def delFiles (links : ℕ) : ℕ → Tree → List Name → Bool → Option Outcome
  | 0, _, _, _ => none
  | fuel + 1, t, path, isDelSelf =>
    match (if isDirectory links t path then
        eachChild (fun tree path => delFiles links fuel tree path true) path
          (listFiles links t path)
          ⟨false, t, []⟩
      else some (false, ⟨false, t, []⟩)) with
    | none => none
    | some (true, o) => some o
    | some (false, o) => some (delSelf links path isDelSelf o)

/-- No link is followed: each path that is deleted is that of the names on the way to its place. -/
def Outcome.Direct (o : Outcome) : Prop := ∀ r ∈ o.removed, r.1 = r.2.reverse

/-- What a call that deletes the subtree of a directory, and nothing else, ends with. -/
structure Removes (t : Tree) (top : Place) (isDelSelf : Bool) (o : Outcome) : Prop where
  result : o.result = true
  gone : ∀ place, Below top place ∨ isDelSelf = true ∧ place = top → o.tree.entry place = none
  kept : ∀ place, ¬ (Below top place ∨ isDelSelf = true ∧ place = top) →
    o.tree.entry place = t.entry place
  direct : o.Direct

/-- `delFiles` deletes the subtree of a directory, and nothing else. -/
def RemovesSubtree (links : ℕ) (t : Tree) (top : Place) (isDelSelf : Bool) : Prop :=
  ∃ fuel o, delFiles links fuel t top.reverse isDelSelf = some o ∧ Removes t top isDelSelf o

/-- There is a link at a place. -/
def isLink (t : Tree) (place : Place) : Bool :=
  match t.entry place with
  | some (.link _) => true
  | _ => false

/-- When the places are taken away one behind the other, no link among them has something behind it
in its turn. -/
def NothingBehind (links : ℕ) : Tree → List Place → Prop
  | _, [] => True
  | t, place :: places =>
    (isLink t place = true → listFiles links t place.reverse = []) ∧
      NothingBehind links (t.cut place) places

instance instDecidableNothingBehind (links : ℕ) :
    (t : Tree) → (places : List Place) → Decidable (NothingBehind links t places)
  | _, [] => inferInstanceAs (Decidable True)
  | t, place :: places =>
    have := instDecidableNothingBehind links (t.cut place) places
    inferInstanceAs (Decidable (_ ∧ NothingBehind links (t.cut place) places))

/-- Nothing is behind the links of two lists when nothing is behind those of the first, nor behind
those of the second once the first is gone. -/
theorem nothingBehind_append {links : ℕ} {t : Tree} {places others : List Place} :
    NothingBehind links t (places ++ others) ↔
      NothingBehind links t places ∧ NothingBehind links (t.cutAll places) others := by
  induction places generalizing t with
  | nil => exact (and_iff_right trivial).symm
  | cons place places ih =>
    rw [List.cons_append, NothingBehind, NothingBehind, ih, and_assoc]
    rfl

section Calls

variable {links fuel n : ℕ} {t : Tree} {path : List Name} {top : Place} {isDelSelf ended : Bool}
  {o o' child : Outcome} {names : List Name} {del : Tree → List Name → Option Outcome}

/-- Only a directory has something to list. -/
theorem listFiles_of_not_isDirectory (h : isDirectory links t path ≠ true) :
    listFiles links t path = [] := by
  rw [isDirectory] at h
  rw [listFiles]
  cases hwalk : t.walk links [] path with
  | none => rfl
  | some place =>
    rw [hwalk] at h
    exact Tree.children_of_not_dir fun hdir => h (decide_eq_true hdir)

/-- A call is the loop over what is listed, and what is behind it where the loop has not returned.
-/
theorem delFiles_succ (links fuel : ℕ) (t : Tree) (path : List Name) (isDelSelf : Bool) :
    delFiles links (fuel + 1) t path isDelSelf =
      (eachChild (fun tree path => delFiles links fuel tree path true) path (listFiles links t path)
        ⟨false, t, []⟩).map fun r => if r.1 then r.2 else delSelf links path isDelSelf r.2 := by
  have hloop : (if isDirectory links t path then
      eachChild (fun tree path => delFiles links fuel tree path true) path (listFiles links t path)
        ⟨false, t, []⟩
    else some (false, ⟨false, t, []⟩)) =
      eachChild (fun tree path => delFiles links fuel tree path true) path (listFiles links t path)
        ⟨false, t, []⟩ := by
    split_ifs with hdir
    · rfl
    · rw [listFiles_of_not_isDirectory hdir]
      rfl
  rw [delFiles, hloop]
  cases eachChild (fun tree path => delFiles links fuel tree path true) path
    (listFiles links t path)
      ⟨false, t, []⟩ with
  | none => rfl
  | some r =>
    obtain ⟨ended, o⟩ := r
    cases ended with
    | false => rfl
    | true => rfl

/-- One child: the loop returns behind it, or goes on. -/
theorem eachChild_cons (h : eachChild del path (name :: names) o = some (ended, o')) :
    ∃ child, del o.tree (path ++ [name]) = some child ∧
      (child.result = false ∧ ended = true ∧ o' = o.take child ∨
        child.result = true ∧ eachChild del path names (o.take child) = some (ended, o')) := by
  rw [eachChild] at h
  cases hdel : del o.tree (path ++ [name]) with
  | none =>
    rw [hdel] at h
    cases h
  | some child =>
    rw [hdel] at h
    refine ⟨child, rfl, ?_⟩
    change (if child.result = false then _ else _) = _ at h
    split_ifs at h with hresult
    · cases h
      exact .inl ⟨hresult, rfl, rfl⟩
    · exact .inr ⟨Bool.eq_true_of_not_eq_false hresult, h⟩

/-- What the loop returns early is false, and what it ends with is of the last child. -/
theorem result_of_eachChild (h : eachChild del path names o = some (ended, o')) :
    if ended then o'.result = false else o'.result = true ∨ names = [] ∧ o' = o := by
  induction names generalizing o with
  | nil =>
    cases h
    exact .inr ⟨rfl, rfl⟩
  | cons name names ih =>
    obtain ⟨child, -, ⟨hresult, rfl, rfl⟩ | ⟨hresult, hrest⟩⟩ := eachChild_cons h
    · exact hresult
    · have hlast := ih hrest
      cases ended with
      | true => exact hlast
      | false =>
        rcases hlast with hlast | ⟨-, rfl⟩
        · exact .inl hlast
        · exact .inl hresult

/-- What each child keeps is kept by the loop. -/
theorem eachChild_keeps {P : Outcome → Prop} (hchild : ∀ o name child, P o →
      del o.tree (path ++ [name]) = some child → P (o.take child))
    (h : eachChild del path names o = some (ended, o')) (ho : P o) : P o' := by
  induction names generalizing o with
  | nil =>
    cases h
    exact ho
  | cons name names ih =>
    obtain ⟨child, hdel, ⟨-, -, rfl⟩ | ⟨-, hrest⟩⟩ := eachChild_cons h
    · exact hchild o name child ho hdel
    · exact ih hrest (hchild o name child ho hdel)

/-- The loop only adds to what has been deleted. -/
theorem removed_of_eachChild (h : eachChild del path names o = some (ended, o')) :
    o.removed ⊆ o'.removed := by
  refine eachChild_keeps (P := fun next => o.removed ⊆ next.removed) ?_ h (List.Subset.refl _)
  intro next name child hnext _
  exact List.subset_append_of_subset_left _ hnext

/-- What is deleted is there, and there is nothing in it. -/
theorem delete_eq_some {place : Place} {t' : Tree} (h : delete links t path = some (place, t')) :
    t.locate links path = some place ∧ t.entry place ≠ none ∧ t.children place = [] ∧
      t' = t.cut place := by
  rw [delete] at h
  cases hplace : t.locate links path with
  | none =>
    rw [hplace] at h
    cases h
  | some other =>
    rw [hplace] at h
    change (if _ then _ else _) = _ at h
    split_ifs at h with hempty
    cases h
    exact ⟨rfl, hempty.1, hempty.2, rfl⟩

/-- A file deletes itself, or `false` is returned. -/
theorem delSelf_true (links : ℕ) (path : List Name) (o : Outcome) :
    (delSelf links path true o).result = false ∧ (delSelf links path true o).tree = o.tree ∧
        (delSelf links path true o).removed = o.removed ∨
      ∃ place, o.tree.locate links path = some place ∧ o.tree.entry place ≠ none ∧
        o.tree.children place = [] ∧
        delSelf links path true o = ⟨true, o.tree.cut place, o.removed ++ [(path, place)]⟩ := by
  rw [delSelf, if_pos rfl]
  cases hdelete : delete links o.tree path with
  | none => exact .inl ⟨rfl, rfl, rfl⟩
  | some r =>
    obtain ⟨place, tree⟩ := r
    obtain ⟨hplace, hthere, hempty, rfl⟩ := delete_eq_some hdelete
    exact .inr ⟨place, hplace, hthere, hempty, rfl⟩

/-- What is behind the loop only adds to what has been deleted. -/
theorem removed_subset_delSelf (links : ℕ) (path : List Name) (isDelSelf : Bool) (o : Outcome) :
    o.removed ⊆ (delSelf links path isDelSelf o).removed := by
  cases isDelSelf with
  | false => exact List.Subset.refl _
  | true =>
    rcases delSelf_true links path o with ⟨-, -, hremoved⟩ | ⟨place, -, -, -, heq⟩
    · rw [hremoved]
      exact List.Subset.refl _
    · rw [heq]
      exact List.subset_append_left _ _

/-- Where nothing has been deleted, no link has been followed. -/
theorem direct_nil (t : Tree) : Outcome.Direct ⟨false, t, []⟩ := List.forall_mem_nil _

/-- Entries are only taken away, and only such as were there. -/
structure Shrinks (t : Tree) (o : Outcome) : Prop where
  le : o.tree.Le t
  there : ∀ r ∈ o.removed, t.entry r.2 ≠ none

/-- A child's call behind others takes entries away as they do. -/
theorem Shrinks.take (h : Shrinks t o) (hchild : Shrinks o.tree child) :
    Shrinks t (o.take child) where
  le := hchild.le.trans h.le
  there r hr := by
    rcases List.mem_append.mp hr with hr | hr
    · exact h.there r hr
    · exact h.le.there (hchild.there r hr)

/-- What is behind the loop takes entries away as the loop does. -/
theorem Shrinks.delSelf (h : Shrinks t o) (links : ℕ) (path : List Name) (isDelSelf : Bool) :
    Shrinks t (delSelf links path isDelSelf o) := by
  cases isDelSelf with
  | false => exact h
  | true =>
    rcases delSelf_true links path o with ⟨-, htree, hremoved⟩ | ⟨place, -, hthere, -, heq⟩
    · constructor
      · rw [htree]
        exact h.le
      · rw [hremoved]
        exact h.there
    · rw [heq]
      refine ⟨(Tree.cut_le _ _).trans h.le, fun r hr => ?_⟩
      rcases List.mem_append.mp hr with hr | hr
      · exact h.there r hr
      · rw [List.mem_singleton.mp hr]
        exact h.le.there hthere

/-- Every call only takes entries away. -/
theorem delFiles_shrinks (h : delFiles links fuel t path isDelSelf = some o) : Shrinks t o := by
  induction fuel generalizing t path isDelSelf o with
  | zero => cases h
  | succ fuel ih =>
    rw [delFiles_succ, Option.map_eq_some_iff] at h
    obtain ⟨⟨ended, inner⟩, hloop, rfl⟩ := h
    have hinner : Shrinks t inner := by
      refine eachChild_keeps (fun next name child hnext hchild => hnext.take (ih hchild)) hloop ?_
      exact ⟨Tree.Le.refl t, List.forall_mem_nil _⟩
    cases ended with
    | true => exact hinner
    | false => exact hinner.delSelf links path isDelSelf

/-- A call that returns `true` has deleted what its path names. -/
theorem own_removed (h : delFiles links fuel t path true = some o) (hresult : o.result = true) :
    ∃ place, (path, place) ∈ o.removed ∧ t.entry place ≠ none := by
  have hshrinks := delFiles_shrinks h
  cases fuel with
  | zero => cases h
  | succ fuel =>
    rw [delFiles_succ, Option.map_eq_some_iff] at h
    obtain ⟨⟨ended, inner⟩, hloop, rfl⟩ := h
    cases ended with
    | true =>
      have hfalse : inner.result = false := result_of_eachChild hloop
      exact absurd hresult (by rw [if_pos rfl, hfalse]; exact Bool.false_ne_true)
    | false =>
      rcases delSelf_true links path inner with ⟨hfalse, -, -⟩ | ⟨place, -, -, -, heq⟩
      · exact absurd hresult (by rw [if_neg Bool.false_ne_true, hfalse]; exact Bool.false_ne_true)
      · refine ⟨place, ?_, hshrinks.there (path, place) ?_⟩
        all_goals
          rw [if_neg Bool.false_ne_true, heq]
          exact List.mem_append_right _ List.mem_cons_self

end Calls

/-- The places that a call is to delete, in the order in which it does. -/
def targets (t : Tree) (n : ℕ) (top : Place) (isDelSelf : Bool) : List Place :=
  t.belowTo n top ++ if isDelSelf then [top] else []

/-- The places that the calls for some children are to delete. -/
def childTargets (t : Tree) (n : ℕ) (top : Place) (names : List Name) : List Place :=
  names.flatMap fun name => targets t n (name :: top) true

section Targets

variable {links fuel n : ℕ} {t : Tree} {top : Place} {isDelSelf : Bool}
  {o o' : Outcome} {name : Name}
  {names : List Name} {del : Tree → List Name → Option Outcome}

/-- The call for a child leaves the others as they are. -/
theorem rest_apart (t : Tree) (n : ℕ) (top : Place) (hname : name ∉ names) :
    (∀ other ∈ names,
      (t.cutAll (targets t n (name :: top) true)).entry (other :: top) = t.entry (other :: top)) ∧
      childTargets (t.cutAll (targets t n (name :: top) true)) n top names =
        childTargets t n top names := by
  have hne : ∀ other ∈ names, name ≠ other := fun other hother heq => hname (heq ▸ hother)
  constructor
  · intro other hother
    exact (Tree.cutAll_apart (hne other hother) n List.suffix_rfl).1
  · refine List.flatMap_congr fun other hother => ?_
    exact congrArg (· ++ [other :: top])
      (Tree.belowTo_congr fun place hplace => (Tree.cutAll_apart (hne other hother) n hplace).2)

/-- Where a loop runs through and follows no link, nothing was behind a link, and what it was to
delete is gone. -/
theorem eachChild_direct (hchild : ∀ (t : Tree) (name : Name) (child : Outcome),
      t.entry (name :: top) ≠ none → t.Within n (name :: top) →
      del t (top.reverse ++ [name]) = some child → child.result = true → child.Direct →
      NothingBehind links t (targets t n (name :: top) true) ∧
        child.tree = t.cutAll (targets t n (name :: top) true))
    (hnodup : names.Nodup) (hnames : ∀ name ∈ names, o.tree.entry (name :: top) ≠ none)
    (hwithin : o.tree.Within (n + 1) top)
    (h : eachChild del top.reverse names o = some (false, o')) (hdirect : o'.Direct) :
    NothingBehind links o.tree (childTargets o.tree n top names) ∧
      o'.tree = o.tree.cutAll (childTargets o.tree n top names) := by
  induction names generalizing o with
  | nil =>
    cases h
    exact ⟨trivial, rfl⟩
  | cons name names ih =>
    obtain ⟨hname, hrest⟩ := List.nodup_cons.mp hnodup
    obtain ⟨hthere, hothers⟩ := List.forall_mem_cons.mp hnames
    obtain ⟨child, hdel, ⟨-, hended, -⟩ | ⟨hresult, hloop⟩⟩ := eachChild_cons h
    · cases hended
    · have hremoved : child.Direct := fun r hr =>
        hdirect r (removed_of_eachChild hloop (List.mem_append_right _ hr))
      obtain ⟨hnothing, htree⟩ :=
        hchild o.tree name child hthere (hwithin.child name) hdel hresult hremoved
      obtain ⟨hentries, htargets⟩ := rest_apart o.tree n top hname
      have hnext := ih hrest (o := o.take child) ?_ ?_ hloop
      · change NothingBehind links child.tree (childTargets child.tree n top names) ∧
          o'.tree = child.tree.cutAll (childTargets child.tree n top names) at hnext
        rw [htree, htargets] at hnext
        rw [childTargets, List.flatMap_cons, nothingBehind_append, Tree.cutAll_append]
        exact ⟨⟨hnothing, hnext.1⟩, hnext.2⟩
      · intro other hother
        change child.tree.entry (other :: top) ≠ none
        rw [htree, hentries other hother]
        exact hothers other hother
      · change child.tree.Within (n + 1) top
        rw [htree]
        exact hwithin.of_le (Tree.cutAll_le _ _)

/-- Where nothing is behind a link, a loop runs through and deletes what it was to. -/
theorem eachChild_of_nothingBehind (hchild : ∀ (t : Tree) (name : Name),
      t.entry (name :: top) ≠ none → t.Within n (name :: top) →
      NothingBehind links t (targets t n (name :: top) true) →
      ∃ child, del t (top.reverse ++ [name]) = some child ∧ child.result = true ∧ child.Direct ∧
        child.tree = t.cutAll (targets t n (name :: top) true))
    (hnodup : names.Nodup) (hnames : ∀ name ∈ names, o.tree.entry (name :: top) ≠ none)
    (hwithin : o.tree.Within (n + 1) top) (hdirect : o.Direct)
    (h : NothingBehind links o.tree (childTargets o.tree n top names)) :
    ∃ o', eachChild del top.reverse names o = some (false, o') ∧ o'.Direct ∧
      o'.tree = o.tree.cutAll (childTargets o.tree n top names) := by
  induction names generalizing o with
  | nil => exact ⟨o, rfl, hdirect, rfl⟩
  | cons name names ih =>
    obtain ⟨hname, hrest⟩ := List.nodup_cons.mp hnodup
    obtain ⟨hthere, hothers⟩ := List.forall_mem_cons.mp hnames
    rw [childTargets, List.flatMap_cons, nothingBehind_append] at h
    obtain ⟨child, hdel, hresult, hremoved, htree⟩ :=
      hchild o.tree name hthere (hwithin.child name) h.1
    obtain ⟨hentries, htargets⟩ := rest_apart o.tree n top hname
    have hnext := ih hrest (o := o.take child) ?_ ?_ ?_ ?_
    · obtain ⟨o', hloop, hdirect', htree'⟩ := hnext
      refine ⟨o', ?_, hdirect', ?_⟩
      · rw [eachChild, hdel]
        change (if child.result = false then _ else _) = _
        rw [if_neg (by rw [hresult]; exact Bool.true_eq_false_eq_False), hloop]
      · change o'.tree = child.tree.cutAll (childTargets child.tree n top names) at htree'
        rw [htree', htree, htargets, childTargets, childTargets, List.flatMap_cons,
          Tree.cutAll_append]
    · intro other hother
      change child.tree.entry (other :: top) ≠ none
      rw [htree, hentries other hother]
      exact hothers other hother
    · change child.tree.Within (n + 1) top
      rw [htree]
      exact hwithin.of_le (Tree.cutAll_le _ _)
    · intro r hr
      rcases List.mem_append.mp hr with hr | hr
      · exact hdirect r hr
      · exact hremoved r hr
    · change NothingBehind links child.tree (childTargets child.tree n top names)
      rw [htree, htargets]
      exact h.2

/-- A link has a target. -/
theorem isLink_iff : isLink t top = true ↔ ∃ target, t.entry top = some (.link target) := by
  rw [isLink]
  cases t.entry top with
  | none => exact iff_of_false Bool.false_ne_true fun ⟨_, h⟩ => by cases h
  | some e =>
    cases e with
    | dir => exact iff_of_false Bool.false_ne_true fun ⟨_, h⟩ => by cases h
    | file => exact iff_of_false Bool.false_ne_true fun ⟨_, h⟩ => by cases h
    | link target => exact iff_of_true rfl ⟨target, rfl⟩

/-- A link has no children of its own. -/
theorem children_of_isLink (h : isLink t top = true) : t.children top = [] := by
  obtain ⟨target, htarget⟩ := isLink_iff.mp h
  refine Tree.children_of_not_dir fun hdir => ?_
  rw [htarget] at hdir
  cases hdir

/-- Of what is no link, what is listed is what is in it. -/
theorem listFiles_of_not_isLink (hthere : t.entry top ≠ none) (hlink : ¬ isLink t top = true) :
    listFiles links t top.reverse = t.children top := by
  rw [listFiles, Tree.walk_place hthere fun target htarget =>
    hlink (isLink_iff.mpr ⟨target, htarget⟩)]

/-- For one place: if it is a link, there is nothing behind it. -/
theorem nothingBehind_single :
    NothingBehind links t [top] ↔ (isLink t top = true → listFiles links t top.reverse = []) :=
  and_iff_left trivial

/-- When the places below a file are gone, it deletes itself. -/
theorem delSelf_place (hthere : o.tree.entry top ≠ none)
    (h : (delSelf links top.reverse true o).result = true) :
    o.tree.children top = [] ∧
      delSelf links top.reverse true o =
        ⟨true, o.tree.cut top, o.removed ++ [(top.reverse, top)]⟩ := by
  rcases delSelf_true links top.reverse o with ⟨hfalse, -, -⟩ | ⟨place, hplace, -, hempty, heq⟩
  · rw [hfalse] at h
    cases h
  · rw [Tree.locate_place hthere] at hplace
    obtain rfl := Option.some.inj hplace
    exact ⟨hempty, heq⟩

/-- A file, or a directory with nothing in it, deletes itself. -/
theorem delSelf_of_empty (hthere : o.tree.entry top ≠ none) (hempty : o.tree.children top = []) :
    delSelf links top.reverse true o =
      ⟨true, o.tree.cut top, o.removed ++ [(top.reverse, top)]⟩ := by
  have hdelete : delete links o.tree top.reverse = some (top, o.tree.cut top) := by
    rw [delete, Tree.locate_place hthere]
    exact if_pos ⟨hthere, hempty⟩
  rw [delSelf, if_pos rfl, hdelete]

/-- Where a link has something behind it, a child is deleted by another path than that of the names
on the way to it. -/
theorem listFiles_eq_nil_of_direct (hlink : isLink t top = true)
    (h : eachChild (fun tree path => delFiles links fuel tree path true) top.reverse
      (listFiles links t top.reverse) ⟨false, t, []⟩ = some (false, o))
    (hdirect : o.Direct) : listFiles links t top.reverse = [] := by
  cases hlisted : listFiles links t top.reverse with
  | nil => rfl
  | cons name names =>
    rw [hlisted] at h
    obtain ⟨child, hdel, hor⟩ := eachChild_cons h
    rcases hor with ⟨-, hended, -⟩ | ⟨htrue, hrest⟩
    · cases hended
    · obtain ⟨place, hmem, hplace⟩ := own_removed hdel htrue
      have hpath := hdirect _ (removed_of_eachChild hrest (List.mem_append_right _ hmem))
      obtain rfl : place = name :: top := by
        rw [← List.reverse_reverse place, ← hpath, List.reverse_append, List.reverse_reverse]
        rfl
      have hchild := Tree.mem_children.mpr hplace
      rw [children_of_isLink hlink] at hchild
      cases hchild

/-- The clause of a file itself, behind those of what is below it. -/
theorem nothingBehind_self (h : isLink t top = true → listFiles links t top.reverse = []) (n : ℕ) :
    NothingBehind links (t.cutAll (t.belowTo n top)) [top] := by
  refine nothingBehind_single.mpr fun hlink => ?_
  have hstays : (t.cutAll (t.belowTo n top)).entry top = t.entry top :=
    Tree.entry_cutAll_belowTo_of_not (Tree.not_below_self top)
  rw [isLink, hstays, ← isLink] at hlink
  rw [Tree.belowTo_of_children_eq_nil (children_of_isLink hlink)]
  exact h hlink

/-- A call that deletes only by the names on the way has found no link with something behind it. -/
theorem nothingBehind_of_direct (hthere : t.entry top ≠ none) (hwithin : t.Within n top)
    (h : delFiles links fuel t top.reverse isDelSelf = some o) (hresult : o.result = true)
    (hdirect : o.Direct) :
    (isDelSelf = true ∨ t.children top ≠ []) ∧ NothingBehind links t (targets t n top isDelSelf) ∧
      o.tree = t.cutAll (targets t n top isDelSelf) := by
  induction fuel generalizing n t top isDelSelf o with
  | zero => cases h
  | succ fuel ih =>
    rw [delFiles_succ, Option.map_eq_some_iff] at h
    obtain ⟨⟨ended, inner⟩, hloop, rfl⟩ := h
    cases ended with
    | true =>
      have hfalse : inner.result = false := result_of_eachChild hloop
      rw [if_pos rfl, hfalse] at hresult
      cases hresult
    | false =>
      rw [if_neg Bool.false_ne_true] at hresult hdirect ⊢
      have hinner : inner.Direct := fun r hr =>
        hdirect r (removed_subset_delSelf links _ isDelSelf inner hr)
      have hself : isLink t top = true → listFiles links t top.reverse = [] := fun hlink =>
        listFiles_eq_nil_of_direct hlink hloop hinner
      have hlisted : listFiles links t top.reverse = t.children top := by
        by_cases hlink : isLink t top = true
        · rw [hself hlink, children_of_isLink hlink]
        · exact listFiles_of_not_isLink hthere hlink
      rw [hlisted] at hloop
      have hnonempty : inner.result = true → t.children top ≠ [] := by
        intro htrue hnil
        rw [hnil] at hloop
        cases hloop
        cases htrue
      have hbelow : NothingBehind links t (t.belowTo n top) ∧
          inner.tree = t.cutAll (t.belowTo n top) := by
        cases n with
        | zero =>
          rw [hwithin.children_zero] at hloop
          cases hloop
          exact ⟨trivial, rfl⟩
        | succ n =>
          refine eachChild_direct (o := ⟨false, t, []⟩) ?_ (t.nodup_children top)
            (fun name hname => Tree.mem_children.mp hname) hwithin hloop hinner
          intro t name child hthere hwithin hdel hresult hdirect
          rw [← List.reverse_cons] at hdel
          exact (ih hthere hwithin hdel hresult hdirect).2
      cases isDelSelf with
      | false =>
        rw [targets, if_neg Bool.false_ne_true, List.append_nil]
        exact ⟨.inr (hnonempty hresult), hbelow⟩
      | true =>
        have hleft : inner.tree.entry top ≠ none := by
          rw [hbelow.2, Tree.entry_cutAll_belowTo_of_not (Tree.not_below_self top)]
          exact hthere
        obtain ⟨-, heq⟩ := delSelf_place hleft hresult
        rw [heq, targets, if_pos rfl, nothingBehind_append, Tree.cutAll_append, ← hbelow.2]
        refine ⟨.inl rfl, ⟨hbelow.1, ?_⟩, rfl⟩
        rw [hbelow.2]
        exact nothingBehind_self hself n

/-- What is listed for a file is what is in it. -/
theorem listFiles_of_nothingBehind (hthere : t.entry top ≠ none)
    (hor : isDelSelf = true ∨ t.children top ≠ [])
    (h : NothingBehind links t (targets t n top isDelSelf)) :
    listFiles links t top.reverse = t.children top := by
  by_cases hlink : isLink t top = true
  · have hnil := children_of_isLink hlink
    have hself := (nothingBehind_append.mp h).2
    rw [Tree.belowTo_of_children_eq_nil hnil, hor.resolve_right fun hne => hne hnil] at hself
    rw [hnil]
    exact nothingBehind_single.mp hself hlink
  · exact listFiles_of_not_isLink hthere hlink

/-- Where the loop has deleted what is below a file, the call deletes its targets. -/
theorem delFiles_of_loop (hthere : t.entry top ≠ none) (hwithin : t.Within n top)
    (hor : isDelSelf = true ∨ t.children top ≠ [])
    (hlisted : listFiles links t top.reverse = t.children top)
    (hloop : eachChild (fun tree path => delFiles links fuel tree path true) top.reverse
      (t.children top)
      ⟨false, t, []⟩ = some (false, o)) (hdirect : o.Direct)
        (htree : o.tree = t.cutAll (t.belowTo n top)) :
    ∃ o', delFiles links (fuel + 1) t top.reverse isDelSelf = some o' ∧
      o'.result = true ∧ o'.Direct ∧
      o'.tree = t.cutAll (targets t n top isDelSelf) := by
  have hleft : o.tree.entry top ≠ none := by
    rw [htree, Tree.entry_cutAll_belowTo_of_not (Tree.not_below_self top)]
    exact hthere
  have hempty : o.tree.children top = [] := by
    rw [htree, List.eq_nil_iff_forall_not_mem]
    intro name hname
    exact Tree.mem_children.mp hname (Tree.entry_cutAll_belowTo hwithin ⟨name, List.suffix_rfl⟩)
  have hcall : delFiles links (fuel + 1) t top.reverse isDelSelf =
      some (delSelf links top.reverse isDelSelf o) := by
    rw [delFiles_succ, hlisted, hloop]
    rfl
  refine ⟨_, hcall, ?_⟩
  cases isDelSelf with
  | false =>
    have hresult := result_of_eachChild hloop
    rw [targets, if_neg Bool.false_ne_true, List.append_nil]
    exact ⟨hresult.resolve_right fun hnil => hor.elim Bool.false_ne_true fun hne => hne hnil.1,
      hdirect, htree⟩
  | true =>
    rw [delSelf_of_empty hleft hempty, targets, if_pos rfl, Tree.cutAll_append, ← htree]
    refine ⟨rfl, fun r hr => ?_, rfl⟩
    rcases List.mem_append.mp hr with hr | hr
    · exact hdirect r hr
    · rw [List.mem_singleton.mp hr]

/-- Where no link has something behind it, a call deletes its targets by the names on the way. -/
theorem delFiles_of_nothingBehind (hthere : t.entry top ≠ none) (hwithin : t.Within n top)
    (hor : isDelSelf = true ∨ t.children top ≠ [])
    (h : NothingBehind links t (targets t n top isDelSelf)) :
    ∃ o, delFiles links (n + 1) t top.reverse isDelSelf = some o ∧ o.result = true ∧ o.Direct ∧
      o.tree = t.cutAll (targets t n top isDelSelf) := by
  induction n generalizing t top isDelSelf with
  | zero =>
    have hnil := hwithin.children_zero
    refine delFiles_of_loop (o := ⟨false, t, []⟩) hthere hwithin hor
      (listFiles_of_nothingBehind hthere hor h) ?_ (direct_nil t) rfl
    rw [hnil]
    rfl
  | succ n ih =>
    have hloop : ∃ o, eachChild (fun tree path => delFiles links (n + 1) tree path true) top.reverse
        (t.children top) ⟨false, t, []⟩ = some (false, o) ∧ o.Direct ∧
          o.tree = t.cutAll (t.belowTo (n + 1) top) := by
      refine eachChild_of_nothingBehind (o := ⟨false, t, []⟩) ?_ (t.nodup_children top)
        (fun name hname => Tree.mem_children.mp hname) hwithin (direct_nil t)
        (nothingBehind_append.mp h).1
      intro t name hthere hwithin hnothing
      rw [← List.reverse_cons]
      exact ih hthere hwithin (.inl rfl) hnothing
    obtain ⟨o, hloop, hdirect, htree⟩ := hloop
    exact delFiles_of_loop hthere hwithin hor (listFiles_of_nothingBehind hthere hor h)
      hloop hdirect htree

end Targets

/-- `delFiles` deletes exactly the subtree of a directory if and only if it is to delete the
directory or there is something in it, and no link below it has something behind it in its turn. -/
theorem removesSubtree_iff (links : ℕ) {t : Tree} {top : Place} (isDelSelf : Bool)
    (hdir : t.entry top = some .dir) :
    RemovesSubtree links t top isDelSelf ↔
      (isDelSelf = true ∨ t.children top ≠ []) ∧ NothingBehind links t (t.below top) := by
  obtain ⟨hthere, -⟩ := Tree.plain_of_dir hdir
  have hlink : isLink t top = false := by
    rw [isLink, hdir]
  have htargets : NothingBehind links t (targets t t.depth top isDelSelf) ↔
      NothingBehind links t (t.below top) := by
    refine nothingBehind_append.trans (and_iff_left ?_)
    cases isDelSelf with
    | false => exact trivial
    | true => exact nothingBehind_self (fun h => absurd h (hlink ▸ Bool.false_ne_true)) _
  rw [← htargets]
  constructor
  · rintro ⟨fuel, o, hcall, h⟩
    have hdirect := nothingBehind_of_direct hthere (t.within_depth top) hcall h.result h.direct
    exact ⟨hdirect.1, hdirect.2.1⟩
  · rintro ⟨hor, hnothing⟩
    obtain ⟨o, hcall, hresult, hdirect, htree⟩ :=
      delFiles_of_nothingBehind hthere (t.within_depth top) hor hnothing
    refine ⟨_, o, hcall, hresult, fun place hplace => ?_, fun place hplace => ?_, hdirect⟩
    · rcases hplace with hbelow | ⟨hself, rfl⟩
      · by_contra hleft
        rw [htree, targets, Tree.cutAll_append] at hleft
        exact (Tree.cutAll_le _ _).there hleft
          (Tree.entry_cutAll_belowTo (t.within_depth top) hbelow)
      · rw [htree, Tree.entry_cutAll, if_pos]
        refine ⟨place, List.mem_append_right _ ?_, List.suffix_rfl⟩
        rw [if_pos hself]
        exact List.mem_cons_self
    · rw [htree, Tree.entry_cutAll, if_neg]
      rintro ⟨target, htarget, hsuffix⟩
      rcases List.mem_append.mp htarget with hbelow | hself
      · obtain ⟨name, hname⟩ := Tree.below_of_mem_belowTo hbelow
        exact hplace (.inl ⟨name, hname.trans hsuffix⟩)
      · split_ifs at hself with hdel
        · rw [List.mem_singleton.mp hself] at hsuffix
          rcases eq_or_below hsuffix with heq | hbelow
          · exact hplace (.inr ⟨hdel, heq⟩)
          · exact hplace (.inl hbelow)
        · cases hself

/-- A directory `d` with a link `l` in it to a directory `o` outside. -/
def linkOut (file : Bool) : AList fun _ : Place => Entry :=
  AList.insert [[0x6c], [0x64]] (.link [slash, 0x6f])
    (AList.insert [[0x64]] .dir (AList.insert [[0x6f]] .dir (AList.insert [] .dir
      (if file then AList.singleton [[0x66], [0x6f]] .file else ∅))))

/-- The link leads to a directory with a file in it. -/
def linkToFull : Tree := Tree.ofEntries (linkOut true) (by decide)

/-- The link leads to an empty directory. -/
def linkToEmpty : Tree := Tree.ofEntries (linkOut false) (by decide)

/-- What a link to an empty directory leads to stays. -/
theorem link_removed : RemovesSubtree 40 linkToEmpty [[0x64]] true :=
  (removesSubtree_iff 40 true (by decide)).mpr ⟨.inl rfl, by decide⟩

/-- A file outside is deleted through a link. -/
theorem outside_deleted : ¬ RemovesSubtree 40 linkToFull [[0x64]] true := by
  rintro ⟨fuel, o, hcall, h⟩
  have hthere : linkToFull.entry [[0x64]] ≠ none := by decide
  have hdirect := nothingBehind_of_direct hthere (Tree.within_depth _ _) hcall h.result h.direct
  have hbehind : ¬ NothingBehind 40 linkToFull
      (targets linkToFull linkToFull.depth [[0x64]] true) := by
    decide
  exact hbehind hdirect.2.1

end XposedJniTrace.FileUtils
