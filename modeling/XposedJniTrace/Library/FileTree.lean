import Mathlib.Data.List.AList
import XposedJniTrace.Library.TextStream

/-!
# Trees of directories and files

A finite tree of directories and regular files, with the places in it, and the way that the
components of a path lead from one place to another. A tree is kept whole: it has a root, what is in
it stands in a directory, and has a name that a component of a path can be. Adding an entry keeps
what is there, and every way that leads somewhere. The directories up to a place are made from the
first that is missing on, or not at all.
-/

namespace FileTree

/-- The name of an entry, or a component of a path. -/
abbrev Name := List UInt8

/-- A place: the names on the way to it, the innermost first. -/
abbrev Place := List Name

/-- The byte between two components of a path. -/
def slash : UInt8 := 0x2f

/-- The component that stays. -/
def dot : Name := [0x2e]

/-- The component that goes up. -/
def dotdot : Name := [0x2e, 0x2e]

/-- The components of a path. -/
def components (path : List UInt8) : List Name := path.splitOn slash

/-- A component that names an entry. -/
def IsName (c : Name) : Prop := c ≠ [] ∧ c ≠ dot ∧ c ≠ dotdot ∧ slash ∉ c

instance (c : Name) : Decidable (IsName c) := inferInstanceAs (Decidable (_ ∧ _))

/-- The place that a component leads to from a directory. -/
def enter (place : Place) (c : Name) : Place :=
  if c = [] ∨ c = dot then place else if c = dotdot then place.tail else c :: place

/-- What can be at a place. -/
inductive Kind where
  | dir
  | file
  deriving DecidableEq

/-- A tree of directories and regular files: what is at each place, the root a directory, and each
other place in a directory and under a name. -/
structure Tree where
  entries : AList fun _ : Place => Kind
  root : entries.lookup [] = some .dir
  parent : ∀ name place, name :: place ∈ entries → entries.lookup place = some .dir
  named : ∀ name place, name :: place ∈ entries → IsName name

namespace Tree

/-- A tree with nothing in it. -/
def bare : Tree where
  entries := AList.singleton [] .dir
  root := rfl
  parent name place h := by
    have hkey : name :: place ∈ [[]] := h
    exact absurd (List.mem_singleton.mp hkey) (List.cons_ne_nil name place)
  named name place h := by
    have hkey : name :: place ∈ [[]] := h
    exact absurd (List.mem_singleton.mp hkey) (List.cons_ne_nil name place)

/-- What is at a place. -/
def kind (t : Tree) (place : Place) : Option Kind := t.entries.lookup place

variable {t : Tree} {place : Place} {name : Name}

/-- What is somewhere is in a directory. -/
theorem kind_parent (h : t.kind (name :: place) ≠ none) : t.kind place = some .dir := by
  refine t.parent name place (AList.lookup_isSome.mp ?_)
  exact Option.isSome_iff_ne_none.mpr h

/-- Above something there is something. -/
theorem kind_tail (h : t.kind place ≠ none) : t.kind place.tail ≠ none := by
  cases place with
  | nil => exact h
  | cons name place =>
    rw [List.tail_cons, kind_parent h]
    exact Option.some_ne_none _

/-- At the root there is a directory. -/
theorem kind_root (t : Tree) : t.kind [] = some .dir := t.root

/-- What is above something that is there is there. -/
theorem kind_above {above : Place} (h : t.kind place ≠ none) (habove : above <:+ place) :
    t.kind above ≠ none := by
  induction place with
  | nil => exact List.suffix_nil.mp habove ▸ h
  | cons name place ih =>
    rcases List.suffix_cons_iff.mp habove with rfl | habove
    · exact h
    · exact ih (kind_tail h) habove

/-- What is put below the root leaves it a directory. -/
theorem root_insert (t : Tree) (k : Kind) (hne : place ≠ []) :
    (t.entries.insert place k).lookup [] = some .dir := by
  rw [AList.lookup_insert_ne hne.symm]
  exact t.root

/-- With another entry in a directory, every entry is in one. -/
theorem parent_insert (k : Kind) (hdir : t.kind place.tail = some .dir)
    (hnone : t.kind place = none)
    {other : Name} {place' : Place} (h : other :: place' ∈ t.entries.insert place k) :
    (t.entries.insert place k).lookup place' = some .dir := by
  have hparent : t.kind place' = some .dir := by
    rcases (AList.mem_insert t.entries).mp h with rfl | hmem
    · exact hdir
    · exact t.parent other place' hmem
  have hneq : place' ≠ place := by
    rintro rfl
    rw [hnone] at hparent
    cases hparent
  rw [AList.lookup_insert_ne hneq]
  exact hparent

/-- What is put under a name leaves every place under one. -/
theorem named_insert (k : Kind) (hname : ∀ name ∈ place.head?, IsName name)
    {other : Name} {place' : Place} (h : other :: place' ∈ t.entries.insert place k) :
      IsName other := by
  rcases (AList.mem_insert t.entries).mp h with rfl | hmem
  · exact hname other rfl
  · exact t.named other place' hmem

/-- A tree with another directory. -/
def add (t : Tree) (name : Name) (place : Place) (hdir : t.kind place = some .dir)
    (hname : IsName name)
    (hnone : t.kind (name :: place) = none) : Tree where
  entries := t.entries.insert (name :: place) .dir
  root := t.root_insert .dir (List.cons_ne_nil name place)
  parent _ _ h := parent_insert .dir hdir hnone h
  named _ _ h := by
    refine named_insert .dir (fun other hother => ?_) h
    obtain rfl : name = other := Option.some.inj hother
    exact hname

/-- A directory that is made is there, and all the rest is as it was. -/
theorem kind_add (hdir : t.kind place = some .dir) (hname : IsName name)
    (hnone : t.kind (name :: place) = none) (other : Place) :
    (t.add name place hdir hname hnone).kind other =
      if other = name :: place then some .dir else t.kind other := by
  split_ifs with h
  · subst h
    exact AList.lookup_insert t.entries
  · exact AList.lookup_insert_ne h

/-- A component leads somewhere. -/
def leads (t : Tree) (place : Place) (c : Name) : Bool :=
  t.kind place = some .dir && (t.kind (enter place c)).isSome

/-- The place that components lead to, if every one of them is taken in a directory to something
that is there. -/
def walk (t : Tree) : Place → List Name → Option Place
  | place, [] => some place
  | place, c :: cs => if t.leads place c then t.walk (enter place c) cs else none

/-- A way in two parts. -/
theorem walk_append (t : Tree) (place : Place) (cs ds : List Name) :
    t.walk place (cs ++ ds) = (t.walk place cs).bind fun place' => t.walk place' ds := by
  induction cs generalizing place with
  | nil => rfl
  | cons c cs ih =>
    rw [List.cons_append, walk, walk]
    split_ifs
    · exact ih _
    · rfl

/-- What components lead to is there. -/
theorem kind_walk {cs : List Name} {place' : Place} (h : t.walk place cs = some place')
    (hplace : t.kind place ≠ none) : t.kind place' ≠ none := by
  induction cs generalizing place with
  | nil =>
    obtain rfl := Option.some.inj h
    exact hplace
  | cons c cs ih =>
    rw [walk] at h
    split_ifs at h with hleads
    refine ih h ?_
    rw [leads, Bool.and_eq_true] at hleads
    exact Option.isSome_iff_ne_none.mp hleads.2

/-- From a directory only a name may lead nowhere. -/
theorem leads_of_not_isName {c : Name} (hdir : t.kind place = some .dir) (hslash : slash ∉ c)
    (hc : ¬ IsName c) : t.leads place c = true := by
  have hthere : t.kind place ≠ none := Option.ne_none_iff_exists'.mpr ⟨_, hdir⟩
  have henter : t.kind (enter place c) ≠ none := by
    unfold enter
    split_ifs with hstay hup
    · exact hthere
    · exact kind_tail hthere
    · rw [not_or] at hstay
      exact absurd ⟨hstay.1, hstay.2, hup, hslash⟩ hc
  rw [leads, hdir, decide_eq_true rfl, Bool.true_and]
  exact Option.isSome_iff_ne_none.mpr henter

/-- A name leads one place down. -/
theorem enter_of_isName {c : Name} (h : IsName c) (place : Place) : enter place c = c :: place := by
  rw [enter, if_neg (not_or.mpr ⟨h.1, h.2.1⟩), if_neg h.2.2.1]

/-- Every entry of the first tree is in the second. -/
def Le (t t' : Tree) : Prop := ∀ place k, t.kind place = some k → t'.kind place = some k

/-- A tree is in itself. -/
theorem Le.refl (t : Tree) : t.Le t := fun _ _ h => h

/-- A tree in a tree in a tree is in it. -/
theorem Le.trans {t t' t'' : Tree} (h : t.Le t') (h' : t'.Le t'') : t.Le t'' :=
  fun place k hk => h' place k (h place k hk)

/-- What is there is there in a larger tree. -/
theorem Le.there {t t' : Tree} (h : t.Le t') (hplace : t.kind place ≠ none) :
    t'.kind place ≠ none := by
  obtain ⟨k, hk⟩ := Option.ne_none_iff_exists'.mp hplace
  exact Option.ne_none_iff_exists'.mpr ⟨_, h place k hk⟩

/-- A tree with a directory made has the tree without it. -/
theorem le_add (hdir : t.kind place = some .dir) (hname : IsName name)
    (hnone : t.kind (name :: place) = none) : t.Le (t.add name place hdir hname hnone) := by
  intro other k hk
  rw [kind_add, if_neg, hk]
  rintro rfl
  rw [hnone] at hk
  cases hk

/-- What leads somewhere does so in a larger tree. -/
theorem Le.leads {t t' : Tree} (h : t.Le t') {c : Name} (hleads : t.leads place c = true) :
    t'.leads place c = true := by
  rw [Tree.leads, Bool.and_eq_true, decide_eq_true_eq] at hleads ⊢
  obtain ⟨k, hk⟩ := Option.isSome_iff_exists.mp hleads.2
  exact ⟨h place _ hleads.1, by rw [h _ _ hk]; rfl⟩

/-- A way leads to the same place in a larger tree. -/
theorem Le.walk {t t' : Tree} (h : t.Le t') {cs : List Name} {place' : Place}
    (hwalk : t.walk place cs = some place') : t'.walk place cs = some place' := by
  induction cs generalizing place with
  | nil => exact hwalk
  | cons c cs ih =>
    rw [Tree.walk] at hwalk ⊢
    split_ifs at hwalk with hleads
    rw [if_pos (h.leads hleads)]
    exact ih hwalk

/-- What components name, whether or not they lead there. -/
def normal (place : Place) (cs : List Name) : Place := cs.foldl enter place

/-- A way leads to the place that its components spell. -/
theorem normal_of_walk {cs : List Name} {place' : Place} (h : t.walk place cs = some place') :
    place' = normal place cs := by
  induction cs generalizing place with
  | nil => exact (Option.some.inj h).symm
  | cons c cs ih =>
    rw [walk] at h
    split_ifs at h
    exact ih h

/-- The names of a place spell it. -/
theorem normal_names (h : ∀ name ∈ place, IsName name) : normal [] place.reverse = place := by
  induction place with
  | nil => rfl
  | cons name place ih =>
    obtain ⟨hname, hrest⟩ := List.forall_mem_cons.mp h
    have hway : place.reverse.foldl enter [] = place := ih hrest
    rw [normal, List.reverse_cons, List.foldl_concat, hway, enter_of_isName hname]

section Making

/-- Nothing is at a place, and something can be. -/
structure Free (t : Tree) (place : Place) : Prop where
  ne : place ≠ []
  dir : t.kind place.tail = some .dir
  named : ∀ name ∈ place.head?, IsName name
  none : t.kind place = none

instance (t : Tree) (place : Place) : Decidable (t.Free place) :=
  decidable_of_iff (place ≠ [] ∧ t.kind place.tail = some .dir ∧
    (∀ name ∈ place.head?, IsName name) ∧
    t.kind place = none) ⟨fun h => ⟨h.1, h.2.1, h.2.2.1, h.2.2.2⟩,
      fun h => ⟨h.ne, h.dir, h.named, h.none⟩⟩

/-- A tree with another entry, if its place is free. -/
def put (k : Kind) (t : Tree) (place : Place) : Tree :=
  if h : t.Free place then
    { entries := t.entries.insert place k
      root := t.root_insert k h.ne
      parent := fun _ _ hmem => parent_insert k h.dir h.none hmem
      named := fun _ _ hmem => named_insert k h.named hmem }
  else t

/-- What is put where it can be is there, and all the rest is as it was. -/
theorem kind_put (k : Kind) (t : Tree) (place other : Place) :
    (t.put k place).kind other = if t.Free place ∧ other = place then some k else t.kind other := by
  unfold put
  split_ifs with hfree hother hother
  · rw [hother.2]
    exact AList.lookup_insert t.entries
  · exact AList.lookup_insert_ne fun heq => hother ⟨hfree, heq⟩
  · exact absurd hother.1 hfree
  · rfl

/-- A tree in which something is put has the tree without it. -/
theorem le_put (k : Kind) (t : Tree) (place : Place) : t.Le (t.put k place) := by
  intro other k' hk'
  rw [kind_put, if_neg, hk']
  rintro ⟨hfree, rfl⟩
  rw [hfree.none] at hk'
  cases hk'

/-- The directories up to a place are made where they are missing, from the outermost on, until one
cannot be. -/
def makeAll (denied : Place → Bool) (t : Tree) : Place → Tree × List Place
  | [] => (t, [])
  | name :: place =>
    if t.kind (name :: place) = none then
      let above := t.makeAll denied place
      if above.1.Free (name :: place) ∧ denied (name :: place) = false then
        (above.1.put .dir (name :: place), above.2 ++ [name :: place])
      else above
    else (t, [])

/-- The outermost place on the way to one at which nothing is. -/
def firstMissing (t : Tree) : Place → Option Place
  | [] => none
  | name :: place =>
    if t.kind (name :: place) = none then
      match t.firstMissing place with
      | none => some (name :: place)
      | some first => some first
    else none

variable {denied : Place → Bool}

/-- Nothing is missing exactly when the place is there. -/
theorem firstMissing_eq_none_iff : t.firstMissing place = none ↔ t.kind place ≠ none := by
  cases place with
  | nil =>
    exact iff_of_true rfl (Option.ne_none_iff_exists'.mpr ⟨_, t.kind_root⟩)
  | cons name place =>
    rw [firstMissing]
    split_ifs with hnone
    · refine iff_of_false (fun h => ?_) fun h => h hnone
      cases hfirst : t.firstMissing place with
      | none =>
        rw [hfirst] at h
        cases h
      | some first =>
        rw [hfirst] at h
        cases h
    · exact iff_of_true rfl hnone

/-- The first place that is missing above a place that is missing. -/
theorem firstMissing_cons (h : t.kind (name :: place) = none) :
    t.firstMissing (name :: place) = some ((t.firstMissing place).getD (name :: place)) := by
  rw [firstMissing, if_pos h]
  cases t.firstMissing place with
  | none => rfl
  | some first => rfl

/-- The first place that is missing is on the way. -/
theorem firstMissing_suffix {first : Place} (h : t.firstMissing place = some first) :
    first <:+ place := by
  induction place generalizing first with
  | nil => cases h
  | cons name place ih =>
    by_cases hnone : t.kind (name :: place) = none
    · rw [firstMissing_cons hnone] at h
      obtain rfl := Option.some.inj h
      cases hfirst : t.firstMissing place with
      | none => exact List.suffix_rfl
      | some first => exact (ih hfirst).trans (List.suffix_cons name place)
    · rw [firstMissing, if_neg hnone] at h
      cases h

/-- Where something is already, nothing is made. -/
theorem makeAll_there (h : t.kind (name :: place) ≠ none) :
    t.makeAll denied (name :: place) = (t, []) :=
  if_neg h

/-- A directory is made behind those above it, unless it is denied. -/
theorem makeAll_cons (h : t.kind (name :: place) = none) : t.makeAll denied (name :: place) =
    if (t.makeAll denied place).1.Free (name :: place) ∧ denied (name :: place) = false then
      ((t.makeAll denied place).1.put .dir (name :: place),
        (t.makeAll denied place).2 ++ [name :: place])
    else t.makeAll denied place := if_pos h

/-- A tree in which directories are made has the tree without them. -/
theorem le_makeAll (denied : Place → Bool) (t : Tree) (place : Place) :
    t.Le (t.makeAll denied place).1 := by
  induction place with
  | nil => exact Le.refl t
  | cons name place ih =>
    by_cases hnone : t.kind (name :: place) = none
    · rw [makeAll_cons hnone]
      split_ifs
      · exact ih.trans (le_put .dir _ _)
      · exact ih
    · rw [makeAll_there hnone]
      exact Le.refl t

/-- What is made are directories where nothing was, and all else stays. -/
theorem kind_makeAll (denied : Place → Bool) (t : Tree) (place other : Place) :
    (other ∈ (t.makeAll denied place).2 ∧ t.kind other = none ∧ other <:+ place ∧
        (t.makeAll denied place).1.kind other = some .dir) ∨
      (other ∉ (t.makeAll denied place).2 ∧ (t.makeAll denied place).1.kind other =
        t.kind other) := by
  induction place with
  | nil => exact .inr ⟨List.not_mem_nil, rfl⟩
  | cons name place ih =>
    have hshorter := ih.imp_left fun h =>
      (⟨h.1, h.2.1, h.2.2.1.trans (List.suffix_cons name place), h.2.2.2⟩ :
        _ ∧ _ ∧ other <:+ name :: place ∧ _)
    by_cases hnone : t.kind (name :: place) = none
    · rw [makeAll_cons hnone]
      split_ifs with hmade
      · by_cases hother : other = name :: place
        · subst hother
          refine .inl ⟨List.mem_append_right _ List.mem_cons_self, hnone, List.suffix_rfl, ?_⟩
          rw [kind_put, if_pos ⟨hmade.1, rfl⟩]
        · rw [kind_put, if_neg fun h => hother h.2, List.mem_append, List.mem_singleton,
            or_iff_left hother]
          exact hshorter
      · exact hshorter
    · rw [makeAll_there hnone]
      exact .inr ⟨List.not_mem_nil, rfl⟩

/-- Where nothing is made, nothing changes. -/
theorem makeAll_of_nil (h : (t.makeAll denied place).2 = []) : (t.makeAll denied place).1 = t := by
  induction place with
  | nil => rfl
  | cons name place ih =>
    by_cases hnone : t.kind (name :: place) = none
    · rw [makeAll_cons hnone] at h ⊢
      split_ifs at h ⊢
      · exact absurd h (List.append_ne_nil_of_right_ne_nil _ (List.cons_ne_nil _ _))
      · exact ih h
    · rw [makeAll_there hnone]

/-- Something is made exactly if the first that is missing can be, and all of it is there or
below. -/
theorem makeAll_from_first (denied : Place → Bool) (t : Tree) (place : Place) :
    ((t.makeAll denied place).2 = [] ∧
        ∀ first, t.firstMissing place = some first → ¬ (t.Free first ∧ denied first = false)) ∨
      ∃ first, t.firstMissing place = some first ∧ t.Free first ∧ denied first = false ∧
        first ∈ (t.makeAll denied place).2 ∧ ∀ made ∈ (t.makeAll denied place).2,
          first <:+ made := by
  induction place with
  | nil => exact .inl ⟨rfl, fun first h => by cases h⟩
  | cons name place ih =>
    by_cases hnone : t.kind (name :: place) = none
    · rw [makeAll_cons hnone, firstMissing_cons hnone]
      cases hfirst : t.firstMissing place with
      | none =>
        -- The place itself is the first.
        have hnil : (t.makeAll denied place).2 = [] := by
          rcases ih with ⟨hnil, -⟩ | ⟨first, hsome, -⟩
          · exact hnil
          · rw [hfirst] at hsome
            cases hsome
        rw [makeAll_of_nil hnil, hnil]
        split_ifs with hmade
        · refine .inr ⟨name :: place, rfl, hmade.1, hmade.2, List.mem_cons_self,
            fun made hmem => ?_⟩
          exact List.mem_singleton.mp hmem ▸ List.suffix_rfl
        · refine .inl ⟨hnil, fun first heq hfree => hmade ?_⟩
          obtain rfl : name :: place = first := Option.some.inj heq
          exact hfree
      | some first =>
        have hshort := firstMissing_suffix hfirst
        have hchange : some ((some first).getD (name :: place)) = some first := rfl
        rw [hchange, ← hfirst]
        rcases ih with ⟨hnil, hnot⟩ | ⟨other, hother, hfree, hallowed, hmem, hbelow⟩
        · refine .inl ⟨?_, hnot⟩
          rw [if_neg, hnil]
          rintro ⟨hmade, -⟩
          have hdir := hmade.dir
          rw [makeAll_of_nil hnil, List.tail_cons] at hdir
          have hthere := firstMissing_eq_none_iff.mpr (Option.ne_none_iff_exists'.mpr ⟨_, hdir⟩)
          rw [hfirst] at hthere
          cases hthere
        · obtain rfl : first = other := Option.some.inj (hfirst.symm.trans hother)
          refine .inr ⟨first, hfirst, hfree, hallowed, ?_⟩
          split_ifs
          · refine ⟨List.mem_append_left _ hmem, fun made hmade => ?_⟩
            rcases List.mem_append.mp hmade with hmade | hmade
            · exact hbelow made hmade
            · rw [List.mem_singleton.mp hmade]
              exact hshort.trans (List.suffix_cons name place)
          · exact ⟨hmem, hbelow⟩
    · rw [makeAll_there hnone, firstMissing, if_neg hnone]
      exact .inl ⟨rfl, fun first h => by cases h⟩

end Making

end Tree

section Components

/-- The components of two paths with a slash between them. -/
theorem components_joined (front back : List UInt8) :
    components (front ++ slash :: back) = components front ++ components back :=
  List.splitOn_append_cons_self front back

/-- A last component without slashes. -/
theorem components_append {c : Name} (hc : slash ∉ c) (front : List UInt8) :
    components (front ++ slash :: c) = components front ++ [c] := by
  rw [components_joined, components, components, List.splitOn_eq_singleton hc]

/-- There is no slash in a component. -/
theorem slash_not_mem_components {path : List UInt8} {c : Name}
    (h : c ∈ components path) : slash ∉ c := by
  induction path generalizing c with
  | nil =>
    obtain rfl := List.mem_singleton.mp h
    exact List.not_mem_nil
  | cons a path ih =>
    rw [components, List.splitOn_cons_eq_if_modifyHead] at h
    split_ifs at h with ha
    · rcases List.mem_cons.mp h with rfl | h
      · exact List.not_mem_nil
      · exact ih h
    · obtain ⟨first, rest, hsplit⟩ := List.exists_cons_of_ne_nil (List.splitOn_ne_nil slash path)
      have hcomponents : components path = first :: rest := hsplit
      rw [hsplit, List.modifyHead_cons] at h
      rcases List.mem_cons.mp h with rfl | h
      · rw [List.mem_cons, not_or]
        refine ⟨fun heq => ha (beq_iff_eq.mpr heq.symm), ih ?_⟩
        rw [hcomponents]
        exact List.mem_cons_self
      · refine ih ?_
        rw [hcomponents]
        exact List.mem_cons_of_mem _ h

/-- Each path has a component. -/
theorem components_ne_nil (path : List UInt8) : components path ≠ [] :=
  List.splitOn_ne_nil slash path

/-- The empty component stays at the root. -/
theorem leads_root (t : Tree) : t.leads [] [] = true := by
  rw [Tree.leads, Tree.kind, t.root]
  exact congrArg Option.isSome t.root

/-- The empty component leads from the root to itself. -/
theorem walk_root (t : Tree) : t.walk [] [[]] = some [] := if_pos (leads_root t)

/-- The components of a path of names from the root. -/
theorem components_names {place : Place} (h : ∀ name ∈ place, slash ∉ name) :
    components (place.reverse.flatMap fun name => slash :: name) = [] :: place.reverse := by
  induction place with
  | nil => rfl
  | cons name place ih =>
    obtain ⟨hname, hrest⟩ := List.forall_mem_cons.mp h
    rw [List.reverse_cons, List.flatMap_append, List.flatMap_singleton,
      components_append hname, ih hrest]
    rfl

/-- The names on the way to a directory lead to it. -/
theorem walk_names {t : Tree} {cwd : Place} (h : t.kind cwd ≠ none) :
    t.walk [] (components (cwd.reverse.flatMap fun name => slash :: name)) = some cwd := by
  induction cwd with
  | nil => exact walk_root t
  | cons name cwd ih =>
    have hdir := Tree.kind_parent h
    have hmem : name :: cwd ∈ t.entries := AList.lookup_isSome.mp (Option.isSome_iff_ne_none.mpr h)
    have hname := t.named name cwd hmem
    have hleads : t.leads cwd name = true := by
      rw [Tree.leads, hdir, Tree.enter_of_isName hname]
      exact Option.isSome_iff_ne_none.mpr h
    rw [List.reverse_cons, List.flatMap_append, List.flatMap_singleton,
      components_append hname.2.2.2,
      Tree.walk_append, ih (Option.ne_none_iff_exists'.mpr ⟨_, hdir⟩), Option.bind_some, Tree.walk,
      if_pos hleads, Tree.enter_of_isName hname]
    rfl

end Components

end FileTree
