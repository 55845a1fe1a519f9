import Mathlib.Data.List.MinMax
import XposedJniTrace.Library.FileTree

/-!
# Trees with symbolic links

A finite tree of directories, regular files and symbolic links, and the way that the components of a
path lead through it, over at most a given number of links. A subtree is cut off at a time, which
leaves a tree. The places below one are listed as a search visits them that goes below an entry
first and then takes the entry.
-/

namespace LinkTree

open FileTree

/-- What can be at a place: a directory, a regular file, or a link to a target. -/
inductive Entry where
  | dir
  | file
  | link (target : List UInt8)
  deriving DecidableEq

/-- The entries at some of the places. -/
def keep (entries : AList fun _ : Place => Entry) (p : Place → Bool) : AList fun _ :
    Place => Entry :=
  ⟨entries.entries.filter fun e => p e.1, entries.nodupKeys.sublist List.filter_sublist⟩

/-- What is kept is as it was, and nothing else is there. -/
theorem lookup_keep (entries : AList fun _ : Place => Entry) (p : Place → Bool) (place : Place) :
    (keep entries p).lookup place = if p place then entries.lookup place else none := by
  ext e
  have hkept : e ∈ (keep entries p).lookup place ↔ e ∈ entries.lookup place ∧ p place = true := by
    rw [AList.mem_lookup_iff, AList.mem_lookup_iff]
    exact List.mem_filter
  split_ifs with h
  · exact hkept.trans (and_iff_left h)
  · exact hkept.trans (iff_of_false (fun hboth => h hboth.2) fun hnone => by cases hnone)

/-- What is kept is what was there and is to be kept. -/
theorem mem_keep {entries : AList fun _ : Place => Entry} {p : Place → Bool} {place : Place} :
    place ∈ keep entries p ↔ p place = true ∧ place ∈ entries := by
  rw [← AList.lookup_isSome, lookup_keep, ← AList.lookup_isSome]
  split_ifs with h
  · exact (and_iff_right h).symm
  · exact iff_of_false (fun hnone => by cases hnone) fun hboth => h hboth.1

/-- The places that are kept are in the same order. -/
theorem keys_keep (entries : AList fun _ : Place => Entry) (p : Place → Bool) :
    (keep entries p).keys = entries.keys.filter p := by
  change (entries.entries.filter (p ∘ Sigma.fst)).map Sigma.fst =
    (entries.entries.map Sigma.fst).filter p
  exact List.filter_map.symm

/-- What is in a tree stands in a directory. The root may be gone, with everything. -/
structure Tree where
  entries : AList fun _ : Place => Entry
  root : [] ∈ entries → entries.lookup [] = some .dir
  parent : ∀ name place, name :: place ∈ entries → entries.lookup place = some .dir
  named : ∀ name place, name :: place ∈ entries → IsName name

/-- The second place is below the first. -/
def Below (top place : Place) : Prop := ∃ name, (name :: top) <:+ place

/-- A place under another is that one or below it. -/
theorem eq_or_below {top place : Place} (h : top <:+ place) : place = top ∨ Below top place := by
  obtain ⟨front, rfl⟩ := h
  rcases List.eq_nil_or_concat front with rfl | ⟨names, name, rfl⟩
  · exact .inl rfl
  · refine .inr ⟨name, ?_⟩
    rw [List.concat_append]
    exact List.suffix_append names _

/-- The name of a place in a directory, if it is one. -/
def childOf (top : Place) : Place → Option Name
  | [] => none
  | name :: place => if place = top then some name else none

/-- A child of a place has its name in front of it. -/
theorem childOf_eq_some {top place : Place} {name : Name} :
    childOf top place = some name ↔ place = name :: top := by
  cases place with
  | nil => exact iff_of_false (fun h => by cases h) fun h => by cases h
  | cons first place =>
    rw [childOf, List.cons.injEq, and_comm]
    split_ifs with htop
    · rw [Option.some.injEq, and_iff_right htop]
    · exact iff_of_false (fun h => by cases h) fun h => htop h.1

namespace Tree

/-- What is at a place. -/
def entry (t : Tree) (place : Place) : Option Entry := t.entries.lookup place

/-- The names in a directory, in the order in which it lists them. -/
def children (t : Tree) (place : Place) : List Name := t.entries.keys.filterMap (childOf place)

variable {t : Tree} {place top : Place} {name : Name}

/-- Something is at a place exactly when the tree has an entry there. -/
theorem entry_ne_none : t.entry place ≠ none ↔ place ∈ t.entries := by
  rw [entry, Option.ne_none_iff_isSome, AList.lookup_isSome]

/-- The children of a place are the names under it that have an entry. -/
theorem mem_children : name ∈ t.children place ↔ t.entry (name :: place) ≠ none := by
  rw [entry_ne_none, AList.mem_keys, children, List.mem_filterMap]
  constructor
  · rintro ⟨other, hother, hname⟩
    rw [← childOf_eq_some.mp hname]
    exact hother
  · intro h
    exact ⟨name :: place, h, childOf_eq_some.mpr rfl⟩

/-- No name comes twice among the children. -/
theorem nodup_children (t : Tree) (place : Place) : (t.children place).Nodup := by
  refine t.entries.keys_nodup.filterMap ?_
  intro first second name hfirst hsecond
  rw [childOf_eq_some.mp hfirst, childOf_eq_some.mp hsecond]

/-- What is somewhere is in a directory. -/
theorem entry_parent (h : t.entry (name :: place) ≠ none) : t.entry place = some .dir :=
  t.parent name place (entry_ne_none.mp h)

/-- What is somewhere below the root has a name. -/
theorem isName_of_entry (h : t.entry (name :: place) ≠ none) : IsName name :=
  t.named name place (entry_ne_none.mp h)

/-- Only a directory has something in it. -/
theorem children_of_not_dir (h : t.entry place ≠ some .dir) : t.children place = [] := by
  rw [List.eq_nil_iff_forall_not_mem]
  intro name hname
  exact h (entry_parent (mem_children.mp hname))

/-- What is above something that is there is a directory. -/
theorem entry_above (h : t.entry place ≠ none) (habove : top <:+ place) (hne : top ≠ place) :
    t.entry top = some .dir := by
  induction place with
  | nil => exact absurd (List.suffix_nil.mp habove) hne
  | cons name place ih =>
    have hdir := entry_parent h
    rcases List.suffix_cons_iff.mp habove with heq | habove
    · exact absurd heq hne
    · by_cases htop : top = place
      · rw [htop]
        exact hdir
      · exact ih (Option.ne_none_iff_exists'.mpr ⟨_, hdir⟩) habove htop

/-- A tree without a place and what is below it. -/
def cut (t : Tree) (top : Place) : Tree where
  entries := keep t.entries fun place => ¬ top <:+ place
  root h := by
    obtain ⟨hkept, hmem⟩ := mem_keep.mp h
    rw [lookup_keep, if_pos hkept]
    exact t.root hmem
  parent name place h := by
    obtain ⟨hkept, hmem⟩ := mem_keep.mp h
    have hshorter : ¬ top <:+ place := fun hsuffix =>
      of_decide_eq_true hkept (hsuffix.trans (List.suffix_cons name place))
    rw [lookup_keep, if_pos (decide_eq_true hshorter)]
    exact t.parent name place hmem
  named name place h := t.named name place (mem_keep.mp h).2

/-- Nothing is left at a place that is cut off and below it, and all the rest is as it was. -/
theorem entry_cut (t : Tree) (top place : Place) :
    (t.cut top).entry place = if top <:+ place then none else t.entry place := by
  refine (lookup_keep t.entries _ place).trans ?_
  split_ifs with hkept hsuffix hsuffix
  · exact absurd hsuffix (of_decide_eq_true hkept)
  · rfl
  · rfl
  · exact absurd (decide_eq_true hsuffix) hkept

/-- What is not cut off is listed as before. -/
theorem children_cut (h : ∀ name, ¬ top <:+ name :: place) :
    (t.cut top).children place = t.children place := by
  have hkeys : (t.cut top).entries.keys = t.entries.keys.filter fun other => ¬ top <:+ other :=
    keys_keep t.entries _
  rw [children, children, hkeys, List.filterMap_filter]
  refine List.filterMap_congr fun other _ => ?_
  split_ifs with hkept
  · rfl
  · refine (Option.eq_none_iff_forall_ne_some.mpr fun name hname => hkept ?_).symm
    rw [childOf_eq_some.mp hname]
    exact decide_eq_true (h name)

/-- A tree without some places and what is below them. -/
def cutAll (t : Tree) (tops : List Place) : Tree := tops.foldl cut t

/-- Places are cut off one after the other. -/
theorem cutAll_append (t : Tree) (tops others : List Place) :
    t.cutAll (tops ++ others) = (t.cutAll tops).cutAll others := List.foldl_append

/-- Nothing is left under the places that are cut off. -/
theorem entry_cutAll (t : Tree) (tops : List Place) (place : Place) :
    (t.cutAll tops).entry place = if ∃ top ∈ tops, top <:+ place then none else t.entry place := by
  induction tops generalizing t with
  | nil => exact (if_neg fun ⟨_, hmem, _⟩ => List.not_mem_nil hmem).symm
  | cons top tops ih =>
    rw [cutAll, List.foldl_cons, ← cutAll, ih, entry_cut]
    have hcons : (∃ other ∈ top :: tops, other <:+ place) ↔
        top <:+ place ∨ ∃ other ∈ tops, other <:+ place := List.exists_mem_cons_iff ..
    by_cases hfirst : top <:+ place
    · rw [if_pos hfirst, ite_self, if_pos (hcons.mpr (.inl hfirst))]
    · rw [if_neg hfirst]
      exact if_congr (hcons.trans (or_iff_right hfirst)).symm rfl rfl

/-- The children of a place stay where none of them is cut off. -/
theorem children_cutAll {tops : List Place} (h : ∀ top ∈ tops, ∀ name, ¬ top <:+ name :: place) :
    (t.cutAll tops).children place = t.children place := by
  induction tops generalizing t with
  | nil => rfl
  | cons top tops ih =>
    obtain ⟨hfirst, hrest⟩ := List.forall_mem_cons.mp h
    exact (ih hrest).trans (children_cut hfirst)

/-- Every entry of the first tree is in the second. -/
def Le (t t' : Tree) : Prop := ∀ place, t.entry place ≠ none → t.entry place = t'.entry place

/-- A tree is in itself. -/
theorem Le.refl (t : Tree) : t.Le t := fun _ _ => rfl

/-- A tree in a tree in a tree is in it. -/
theorem Le.trans {t t' t'' : Tree} (h : t.Le t') (h' : t'.Le t'') : t.Le t'' := by
  intro place hplace
  have heq := h place hplace
  rw [heq]
  rw [heq] at hplace
  exact h' place hplace

/-- What is there is there in the larger tree. -/
theorem Le.there {t t' : Tree} (h : t.Le t') (hplace : t.entry place ≠ none) :
    t'.entry place ≠ none := by
  rw [← h place hplace]
  exact hplace

/-- A tree that is cut is in the tree. -/
theorem cut_le (t : Tree) (top : Place) : (t.cut top).Le t := by
  intro place hplace
  rw [entry_cut] at hplace ⊢
  split_ifs at hplace ⊢
  · exact absurd rfl hplace
  · rfl

/-- A tree that is cut in many places is in the tree. -/
theorem cutAll_le (t : Tree) (tops : List Place) : (t.cutAll tops).Le t := by
  induction tops generalizing t with
  | nil => exact Le.refl t
  | cons top tops ih => exact (ih (t.cut top)).trans (cut_le t top)

section Walk

variable {links : ℕ}

/-- The place that components lead to, where a link is left to another walk. -/
def walkWith (t : Tree) (follow : Place → List Name → Option Place) :
    Place → List Name → Option Place
  | place, [] => some place
  | place, c :: cs =>
    if t.entry place = some .dir then
      match t.entry (enter place c) with
      | none => none
      | some (.link target) =>
        if target = [] then none
        else follow (if target.head? = some slash then [] else place) (components target ++ cs)
      | some _ => t.walkWith follow (enter place c) cs
    else none

/-- The place that components lead to over at most so many links. -/
def walk (t : Tree) : ℕ → Place → List Name → Option Place
  | 0 => t.walkWith fun _ _ => none
  | links + 1 => t.walkWith (t.walk links)

/-- The place that a path from the root names itself, where a link at its end is not followed. -/
def locate (t : Tree) (links : ℕ) (path : List Name) : Option Place :=
  match path.reverse with
  | [] => some []
  | name :: rest => (t.walk links [] rest.reverse).map (name :: ·)

/-- A directory is there and is no link. -/
theorem plain_of_dir (h : t.entry place = some .dir) :
    t.entry place ≠ none ∧ ∀ target, t.entry place ≠ some (.link target) := by
  rw [h]
  exact ⟨Option.some_ne_none _, fun _ heq => by cases heq⟩

/-- The name of an entry that is no link leads one place down. -/
theorem walkWith_name (follow : Place → List Name → Option Place) (cs : List Name)
    (h : t.entry (name :: top) ≠ none)
    (hlink : ∀ target, t.entry (name :: top) ≠ some (.link target)) :
    t.walkWith follow top (name :: cs) = t.walkWith follow (name :: top) cs := by
  rw [walkWith, if_pos (entry_parent h), FileTree.Tree.enter_of_isName (isName_of_entry h)]
  cases hentry : t.entry (name :: top) with
  | none => exact absurd hentry h
  | some e =>
    cases e with
    | dir => rfl
    | file => rfl
    | link target => exact absurd hentry (hlink target)

/-- The names on the way to what is no link lead to it. -/
theorem walkWith_names (follow : Place → List Name → Option Place) (cs : List Name)
    (h : t.entry place ≠ none) (hlink : ∀ target, t.entry place ≠ some (.link target)) :
    t.walkWith follow [] (place.reverse ++ cs) = t.walkWith follow place cs := by
  induction place generalizing cs with
  | nil => rfl
  | cons name place ih =>
    obtain ⟨hthere, hplain⟩ := plain_of_dir (entry_parent h)
    rw [List.reverse_cons, List.append_assoc, List.singleton_append, ih (name :: cs) hthere hplain]
    exact walkWith_name follow cs h hlink

/-- The names of a place that is there and no link lead to it. -/
theorem walk_place (h : t.entry place ≠ none)
    (hlink : ∀ target, t.entry place ≠ some (.link target)) :
    t.walk links [] place.reverse = some place := by
  have hwith (follow : Place → List Name → Option Place) :
      t.walkWith follow [] place.reverse = some place := by
    have hnames := walkWith_names follow [] h hlink
    rw [List.append_nil] at hnames
    exact hnames
  cases links with
  | zero => exact hwith _
  | succ links => exact hwith _

/-- A place that is there and no link is located by its names. -/
theorem locate_place (h : t.entry place ≠ none) : t.locate links place.reverse = some place := by
  unfold locate
  rw [List.reverse_reverse]
  cases place with
  | nil => rfl
  | cons name place =>
    obtain ⟨hthere, hplain⟩ := plain_of_dir (entry_parent h)
    change (t.walk links [] place.reverse).map (name :: ·) = some (name :: place)
    rw [walk_place hthere hplain]
    rfl

end Walk

section Search

/-- The places below one, at most so deep, where what is below an entry comes in front of it. -/
def belowTo (t : Tree) : ℕ → Place → List Place
  | 0, _ => []
  | n + 1, top => (t.children top).flatMap fun name => t.belowTo n (name :: top) ++ [name :: top]

/-- How many names the longest place has. -/
def depth (t : Tree) : ℕ := (t.entries.keys.map List.length).foldr max 0

/-- The places below one. -/
def below (t : Tree) (top : Place) : List Place := t.belowTo t.depth top

/-- Nothing is more than so deep below a place. -/
def Within (t : Tree) (n : ℕ) (top : Place) : Prop :=
  ∀ place, t.entry place ≠ none → top <:+ place → place.length ≤ top.length + n

/-- The depth of a tree is enough for all that is below a place. -/
theorem within_depth (t : Tree) (top : Place) : t.Within t.depth top := by
  intro place hplace _
  have hmem : place.length ∈ t.entries.keys.map List.length :=
    List.mem_map_of_mem (entry_ne_none.mp hplace)
  have hle : place.length ≤ t.depth := List.le_max_of_le' 0 hmem le_rfl
  omega

/-- One level less is enough below a child. -/
theorem Within.child {n : ℕ} (h : t.Within (n + 1) top) (name : Name) :
    t.Within n (name :: top) := by
  intro place hplace hsuffix
  have hlength := h place hplace ((List.suffix_cons name top).trans hsuffix)
  rw [List.length_cons]
  omega

/-- What is enough for a tree is enough for a smaller one. -/
theorem Within.of_le {t' : Tree} {n : ℕ} (h : t.Within n top) (hle : t'.Le t) : t'.Within n top :=
  fun place hplace => h place (hle.there hplace)

/-- A place below which no level is has no children. -/
theorem Within.children_zero (h : t.Within 0 top) : t.children top = [] := by
  rw [List.eq_nil_iff_forall_not_mem]
  intro name hname
  have hlength := h _ (mem_children.mp hname) (List.suffix_cons name top)
  rw [List.length_cons] at hlength
  omega

/-- There is nothing below a place without children. -/
theorem belowTo_of_children_eq_nil (h : t.children top = []) (n : ℕ) : t.belowTo n top = [] := by
  cases n with
  | zero => rfl
  | succ n => rw [belowTo, h, List.flatMap_nil]

/-- What is listed below a place is below it. -/
theorem below_of_mem_belowTo {n : ℕ} (h : place ∈ t.belowTo n top) : Below top place := by
  induction n generalizing top with
  | zero => cases h
  | succ n ih =>
    obtain ⟨name, hname, hplace⟩ := List.mem_flatMap.mp h
    rcases List.mem_append.mp hplace with hdeep | hself
    · obtain ⟨other, hother⟩ := ih hdeep
      exact ⟨name, (List.suffix_cons other _).trans hother⟩
    · rw [List.mem_singleton.mp hself]
      exact ⟨name, List.suffix_rfl⟩

/-- The places below are listed by the children alone. -/
theorem belowTo_congr {t' : Tree} {n : ℕ}
    (h : ∀ place, top <:+ place → t'.children place = t.children place) :
    t'.belowTo n top = t.belowTo n top := by
  induction n generalizing top with
  | zero => rfl
  | succ n ih =>
    rw [belowTo, belowTo, h top List.suffix_rfl]
    refine List.flatMap_congr fun name _ => ?_
    rw [ih fun place hplace => h place ((List.suffix_cons name top).trans hplace)]

/-- Two entries of a directory have nothing below them in common. -/
theorem not_suffix_of_ne {name other : Name} {deep : Place} (hne : name ≠ other)
    (hdeep : (name :: top) <:+ deep) (hplace : (other :: top) <:+ place) : ¬ deep <:+ place := by
  intro hsuffix
  have hboth := List.suffix_of_suffix_length_le (hdeep.trans hsuffix) hplace le_rfl
  exact hne (List.cons.inj (hboth.eq_of_length rfl)).1

/-- Nothing changes below another entry of a directory. -/
theorem cutAll_apart {name other : Name} (hne : name ≠ other) (n : ℕ)
    (hplace : (other :: top) <:+ place) :
    (t.cutAll (t.belowTo n (name :: top) ++ [name :: top])).entry place = t.entry place ∧
      (t.cutAll (t.belowTo n (name :: top) ++ [name :: top])).children place =
        t.children place := by
  have hdeep : ∀ deep ∈ t.belowTo n (name :: top) ++ [name :: top], (name :: top) <:+ deep := by
    intro deep hmem
    rcases List.mem_append.mp hmem with hbelow | hself
    · obtain ⟨next, hnext⟩ := below_of_mem_belowTo hbelow
      exact (List.suffix_cons next _).trans hnext
    · exact List.mem_singleton.mp hself ▸ List.suffix_rfl
  constructor
  · rw [entry_cutAll, if_neg]
    rintro ⟨deep, hmem, hsuffix⟩
    exact not_suffix_of_ne hne (hdeep deep hmem) hplace hsuffix
  · refine children_cutAll fun deep hmem next => ?_
    exact not_suffix_of_ne hne (hdeep deep hmem) (hplace.trans (List.suffix_cons next place))

/-- All that is below a place is gone without the places below it. -/
theorem entry_cutAll_belowTo {n : ℕ} (h : t.Within n top) (hplace : Below top place) :
    (t.cutAll (t.belowTo n top)).entry place = none := by
  rw [entry_cutAll]
  split_ifs with hcut
  · rfl
  · by_contra hthere
    obtain ⟨name, hname⟩ := hplace
    have hchild : t.entry (name :: top) ≠ none := by
      by_cases heq : name :: top = place
      · rw [heq]
        exact hthere
      · exact Option.ne_none_iff_exists'.mpr ⟨_, entry_above hthere hname heq⟩
    cases n with
    | zero => exact List.not_mem_nil (h.children_zero ▸ mem_children.mpr hchild)
    | succ n =>
      refine hcut ⟨name :: top, List.mem_flatMap.mpr ⟨name, mem_children.mpr hchild, ?_⟩, hname⟩
      exact List.mem_append_right _ List.mem_cons_self

/-- No place is below itself. -/
theorem not_below_self (top : Place) : ¬ Below top top := by
  rintro ⟨name, hname⟩
  have hlength := hname.length_le
  rw [List.length_cons] at hlength
  omega

/-- What is not below a place is not among what is cut off. -/
theorem entry_cutAll_belowTo_of_not {n : ℕ} (hplace : ¬ Below top place) :
    (t.cutAll (t.belowTo n top)).entry place = t.entry place := by
  rw [entry_cutAll, if_neg]
  rintro ⟨other, hmem, hsuffix⟩
  obtain ⟨name, hname⟩ := below_of_mem_belowTo hmem
  exact hplace ⟨name, hname.trans hsuffix⟩

end Search

/-- A tree from entries, each of which is seen to be in its place. -/
def ofEntries (entries : AList fun _ : Place => Entry)
    (h : ∀ place ∈ entries.keys, entries.lookup place.tail = some .dir ∧ ∀ name ∈ place.head?,
      IsName name) :
    Tree where
  entries := entries
  root hmem := (h [] hmem).1
  parent name place hmem := (h (name :: place) hmem).1
  named name place hmem := (h (name :: place) hmem).2 name rfl

end Tree

end LinkTree
