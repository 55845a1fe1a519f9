import XposedJniTrace.Hook.PatchOnce

/-!
# What a successful hook promises

When `Hooker` installs a hook, calls of the address run the replacement, and the cell holds an
entry to the original, until the address is unhooked, whatever else is hooked and unhooked in
between. For an address in the list `Hooker` answers success and installs nothing; the earlier
replacement stays. A failure changes no redirection and no cell.
-/

namespace XposedJniTrace.HookUtils

namespace World

variable {w : World} {a b : Addr}

/-- The redirections depend on the patches alone. -/
theorem redirect_congr {next : World} (h : next.patches = w.patches) (a : Addr) :
    next.redirect a = w.redirect a := by
  rw [redirect, redirect, h]

/-- A new patch redirects its own address. -/
theorem redirect_of_patch {kind : Kind} {r : Addr} (hr : kind.newrep = some r) {next : World}
    (h : next.patches = ⟨a, kind⟩ :: w.patches) : next.redirect a = some r := by
  rw [redirect, h, List.findSome?_cons, if_pos rfl, hr]

/-- A new patch leaves the other addresses alone. -/
theorem redirect_of_ne {kind : Kind} (hne : b ≠ a) {next : World}
    (h : next.patches = ⟨b, kind⟩ :: w.patches) : next.redirect a = w.redirect a := by
  rw [redirect, h, List.findSome?_cons, if_neg hne, redirect]

/-- A pre-handler leaves every call where it was going. -/
theorem redirect_of_instrument {next : World}
    (h : next.patches = ⟨b, .dobbyInstrument⟩ :: w.patches) :
    next.redirect a = w.redirect a := by
  have hnone : (if b = a then Kind.dobbyInstrument.newrep else none) = none := by
    split_ifs <;> rfl
  rw [redirect, h, List.findSome?_cons, hnone, redirect]

end World

/-- Putting back the bytes of one address leaves the patches of the others. -/
theorem findSome_restore {a b : Addr} (hne : b ≠ a) (patches : List Patch) :
    (restore b patches).findSome? (fun p => if p.addr = a then p.kind.newrep else none) =
      patches.findSome? fun p => if p.addr = a then p.kind.newrep else none := by
  induction patches with
  | nil => rfl
  | cons p older ih =>
    rw [restore]
    split_ifs with haddr htable
    · rw [List.findSome?_cons, if_neg (haddr ▸ hne)]
    · rw [ih, List.findSome?_cons, if_neg (haddr ▸ hne)]
    · rw [List.findSome?_cons, List.findSome?_cons, ih]

/-- What `HookerForSign` does: nothing, but allocating the list, or a patch that no list knows. -/
theorem HookerForSign_cases (outcome : Option ℕ) (a r : Addr) (org : Cell) (w : World) :
    (HookerForSign outcome a r org w).2 = w ∨
    (HookerForSign outcome a r org w).2 = w.allocate ∨
    a ∉ w.hooked ∧ ∃ location, (HookerForSign outcome a r org w).2 =
      w.allocate.install (.inlineHook r) a org location := by
  by_cases hnull : a = 0
  · exact .inl (congrArg Prod.snd (if_pos hnull))
  by_cases hlisted : a ∈ w.hooked
  · exact .inr (.inl (congrArg Prod.snd ((if_neg hnull).trans (if_pos hlisted))))
  have hcall : HookerForSign outcome a r org w = InlineHookImpl outcome a r org w.allocate :=
    (if_neg hnull).trans (if_neg hlisted)
  rw [hcall]
  cases outcome with
  | none => exact .inr (.inl rfl)
  | some location => exact .inr (.inr ⟨hlisted, location, rfl⟩)

/-- The address is listed as hooked, and calls of it run the replacement. -/
def InPlace (a r : Addr) (w : World) : Prop :=
  a ∈ w.hooked ∧ w.redirect a = some r

/-- The cell that a call may write. -/
def Op.cell : Op → Option Cell
  | hooker _ _ _ org => some org
  | hookerForSign _ _ _ org => some org
  | addTrampoline _ _ => none
  | unHook _ => none

/-- A hook stays in place under every call but `unHook` of its address. -/
theorem InPlace.call {a r : Addr} {w : World} (h : InPlace a r w) {op : Op} (hop : op ≠ .unHook a) :
    InPlace a r (op.call w).2 := by
  obtain ⟨hlisted, hredirect⟩ := h
  cases op with
  | hooker outcomes b r' org =>
    change InPlace a r (Hooker outcomes b r' org w).2
    rcases Hooker_cases outcomes b r' org w with ⟨-, hcall⟩ | ⟨-, -, hcall⟩ |
      ⟨-, hnew, kind, location, near, -, hcall⟩ | ⟨-, -, -, hcall⟩
    · rw [hcall]
      exact ⟨hlisted, hredirect⟩
    · rw [hcall]
      exact ⟨hlisted, hredirect⟩
    · have hne : b ≠ a := by
        intro heq
        exact hnew (heq ▸ hlisted)
      rw [hcall]
      exact ⟨List.mem_append_left _ hlisted, (World.redirect_of_ne hne rfl).trans hredirect⟩
    · rw [hcall]
      exact ⟨hlisted, hredirect⟩
  | hookerForSign outcome b r' org =>
    change InPlace a r (HookerForSign outcome b r' org w).2
    rcases HookerForSign_cases outcome b r' org w with hcall | hcall | ⟨hnew, location, hcall⟩
    · rw [hcall]
      exact ⟨hlisted, hredirect⟩
    · rw [hcall]
      exact ⟨hlisted, hredirect⟩
    · have hne : b ≠ a := by
        intro heq
        exact hnew (heq ▸ hlisted)
      rw [hcall]
      exact ⟨hlisted, (World.redirect_of_ne hne rfl).trans hredirect⟩
  | addTrampoline outcome b =>
    change InPlace a r (DobbyInstrument outcome b w).2
    unfold DobbyInstrument
    split_ifs
    · exact ⟨hlisted, hredirect⟩
    · exact ⟨hlisted, (World.redirect_of_instrument rfl).trans hredirect⟩
    · exact ⟨hlisted, hredirect⟩
  | unHook b =>
    have hne : b ≠ a := by
      intro heq
      exact hop (heq ▸ rfl)
    change InPlace a r (unHook b w).2
    refine ⟨?_, ?_⟩
    · rw [unHook_hooked, List.mem_filter, decide_eq_true_eq]
      exact ⟨hlisted, hne.symm⟩
    · rw [← hredirect, unHook, DobbyDestroy]
      split_ifs
      · exact findSome_restore hne w.patches
      · rfl

/-- A hook stays in place under every sequence of calls without `unHook` of its address. -/
theorem InPlace.run {a r : Addr} {w : World} (h : InPlace a r w) {ops : List Op}
    (hops : ∀ op ∈ ops, op ≠ .unHook a) : InPlace a r (run ops w) :=
  Runs.foldl_invariant (fun _ op hop hw => hw.call (hops op hop)) h

/-- A call writes no cell but the one that it is passed. -/
theorem cells_call {op : Op} {org : Cell} (h : op.cell ≠ some org) (w : World) :
    (op.call w).2.cells org = w.cells org := by
  cases op with
  | hooker outcomes b r' org' =>
    have hne : org ≠ org' := by
      intro heq
      exact h (heq ▸ rfl)
    change (Hooker outcomes b r' org' w).2.cells org = _
    rcases Hooker_cases outcomes b r' org' w with ⟨-, hcall⟩ | ⟨-, -, hcall⟩ |
      ⟨-, -, kind, location, near, -, hcall⟩ | ⟨-, -, -, hcall⟩
    · rw [hcall]
    · rw [hcall]
      rfl
    · rw [hcall]
      exact if_neg hne
    · rw [hcall]
      rfl
  | hookerForSign outcome b r' org' =>
    have hne : org ≠ org' := by
      intro heq
      exact h (heq ▸ rfl)
    change (HookerForSign outcome b r' org' w).2.cells org = _
    rcases HookerForSign_cases outcome b r' org' w with hcall | hcall | ⟨-, location, hcall⟩
    · rw [hcall]
    · rw [hcall]
      rfl
    · rw [hcall]
      exact if_neg hne
  | addTrampoline outcome b =>
    change (DobbyInstrument outcome b w).2.cells org = _
    unfold DobbyInstrument
    split_ifs <;> rfl
  | unHook b =>
    change (unHook b w).2.cells org = _
    unfold unHook DobbyDestroy
    split_ifs <;> rfl

/-- A sequence of calls writes no cell but those that it is passed. -/
theorem cells_run {ops : List Op} {org : Cell} (h : ∀ op ∈ ops, op.cell ≠ some org) (w : World) :
    (run ops w).cells org = w.cells org :=
  Runs.foldl_invariant (I := fun t => t.cells org = w.cells org)
    (fun t op hop ht => (cells_call (h op hop) t).trans ht) rfl

/-- `Hooker` answers success for an address that was not listed: the hook is in place. -/
theorem Hooker_installs {outcomes : Outcomes} {a r : Addr} {org : Cell} {w : World}
    (hnew : a ∉ w.hooked) (h : (Hooker outcomes a r org w).1 = true) :
    a ≠ 0 ∧ InPlace a r (Hooker outcomes a r org w).2 ∧
      ∃ location, (Hooker outcomes a r org w).2.cells org = some ⟨a, location⟩ := by
  rcases Hooker_cases outcomes a r org w with ⟨-, hcall⟩ | ⟨-, hlisted, -⟩ |
    ⟨hnull, -, kind, location, near, hkind, hcall⟩ | ⟨-, -, -, hcall⟩
  · rw [hcall] at h
    cases h
  · exact absurd hlisted hnew
  · have hr : kind.newrep = some r := by
      rcases hkind with ⟨rfl, -⟩ | ⟨rfl, -⟩
      · rfl
      · rfl
    rw [hcall]
    exact ⟨hnull, ⟨List.mem_append_right _ List.mem_cons_self, World.redirect_of_patch hr rfl⟩,
      location, if_pos rfl⟩
  · rw [hcall] at h
    cases h

/-- `Hooker` answers success for a listed address and changes nothing that a call could notice. -/
theorem Hooker_of_listed {a : Addr} {w : World} (hnull : a ≠ 0) (hlisted : a ∈ w.hooked)
    (outcomes : Outcomes) (r : Addr) (org : Cell) :
    Hooker outcomes a r org w = (true, w.allocate) :=
  (if_neg hnull).trans (if_pos hlisted)

/-- A failure changes nothing that a call could notice. -/
theorem Hooker_of_failure {outcomes : Outcomes} {a r : Addr} {org : Cell} {w : World}
    (h : (Hooker outcomes a r org w).1 = false) :
    (Hooker outcomes a r org w).2.patches = w.patches ∧
      (Hooker outcomes a r org w).2.cells = w.cells := by
  rcases Hooker_cases outcomes a r org w with ⟨-, hcall⟩ | ⟨-, -, hcall⟩ |
    ⟨-, -, kind, location, near, -, hcall⟩ | ⟨-, -, -, hcall⟩
  · rw [hcall]
    exact ⟨rfl, rfl⟩
  · rw [hcall] at h
    cases h
  · rw [hcall] at h
    cases h
  · rw [hcall]
    exact ⟨rfl, rfl⟩

/-- Every listed address is an address, and some replacement of it is in place. -/
def Listed (w : World) : Prop :=
  ∀ a ∈ w.hooked, a ≠ 0 ∧ ∃ r, InPlace a r w

/-- An address that is listed behind a call was listed in front of it, and not unhooked, or has
been hooked by it. -/
theorem mem_hooked_call {a : Addr} {op : Op} {w : World} (h : a ∈ (op.call w).2.hooked) :
    a ∈ w.hooked ∧ op ≠ .unHook a ∨ a ≠ 0 ∧ ∃ r, InPlace a r (op.call w).2 := by
  by_cases hold : a ∈ w.hooked
  · by_cases hop : op = .unHook a
    · subst hop
      change a ∈ (unHook a w).2.hooked at h
      rw [unHook_hooked, List.mem_filter, decide_eq_true_eq] at h
      exact absurd rfl h.2
    · exact .inl ⟨hold, hop⟩
  · right
    cases op with
    | hooker outcomes b r org =>
      change a ∈ (Hooker outcomes b r org w).2.hooked at h
      have hself : a = b ∧ (Hooker outcomes b r org w).1 = true := by
        rcases Hooker_cases outcomes b r org w with ⟨-, hcall⟩ | ⟨-, -, hcall⟩ |
          ⟨-, -, kind, location, near, -, hcall⟩ | ⟨-, -, -, hcall⟩
        · rw [hcall] at h
          exact absurd h hold
        · rw [hcall] at h
          exact absurd h hold
        · rw [hcall] at h ⊢
          rcases List.mem_append.mp h with hmem | hmem
          · exact absurd hmem hold
          · exact ⟨List.mem_singleton.mp hmem, rfl⟩
        · rw [hcall] at h
          exact absurd h hold
      obtain ⟨rfl, hret⟩ := hself
      obtain ⟨hnull, hplace, -⟩ := Hooker_installs hold hret
      exact ⟨hnull, r, hplace⟩
    | hookerForSign outcome b r org =>
      change a ∈ (HookerForSign outcome b r org w).2.hooked at h
      rcases HookerForSign_cases outcome b r org w with hcall | hcall | ⟨-, location, hcall⟩
      · rw [hcall] at h
        exact absurd h hold
      · rw [hcall] at h
        exact absurd h hold
      · rw [hcall] at h
        exact absurd h hold
    | addTrampoline outcome b =>
      change a ∈ (DobbyInstrument outcome b w).2.hooked at h
      unfold DobbyInstrument at h
      split_ifs at h
      · exact absurd h hold
      · exact absurd h hold
      · exact absurd h hold
    | unHook b =>
      change a ∈ (unHook b w).2.hooked at h
      rw [unHook_hooked, List.mem_filter] at h
      exact absurd h.1 hold

/-- In every state of a process, what is listed is in place. -/
theorem listed_run (cells : Cell → Option Entry) (ops : List Op) :
    Listed (run ops (initial cells)) := by
  apply Runs.foldl_invariant
  · intro w op _ hw a ha
    rcases mem_hooked_call ha with ⟨hold, hop⟩ | hnew
    · obtain ⟨hnull, r, hplace⟩ := hw a hold
      exact ⟨hnull, r, hplace.call hop⟩
    · exact hnew
  · intro a ha
    cases ha

/-- What an answer of `Hooker` promises, in every state of a process. When it hooks an address
that was not listed, calls of it run the replacement until it is unhooked, and the cell leads to
the original. For a listed address it answers success, writes no cell, and calls run the
replacement that was in place before. A failure changes no redirection and no cell. -/
theorem Hooker_promise (cells : Cell → Option Entry) (earlier : List Op) (outcomes : Outcomes)
    (a r : Addr) (org : Cell) :
    let w := run earlier (initial cells)
    let ret := (Hooker outcomes a r org w).1
    let next := (Hooker outcomes a r org w).2
    (ret = true → a ∉ w.hooked →
      (∃ location, next.cells org = some ⟨a, location⟩) ∧
      ∀ ops : List Op, (∀ op ∈ ops, op ≠ .unHook a) →
        (run ops next).redirect a = some r ∧
        ((∀ op ∈ ops, op.cell ≠ some org) → (run ops next).cells org = next.cells org)) ∧
    (a ∈ w.hooked →
      ret = true ∧ next.cells = w.cells ∧
      ∃ before, w.redirect a = some before ∧
        ∀ ops : List Op, (∀ op ∈ ops, op ≠ .unHook a) → (run ops next).redirect a = some before) ∧
    (ret = false → (∀ b, next.redirect b = w.redirect b) ∧ next.cells = w.cells) := by
  intro w ret next
  refine ⟨?_, ?_, ?_⟩
  · intro hret hnew
    obtain ⟨-, hplace, hcell⟩ := Hooker_installs hnew hret
    refine ⟨hcell, ?_⟩
    intro ops hops
    exact ⟨(hplace.run hops).2, fun hcells => cells_run hcells _⟩
  · intro hlisted
    obtain ⟨hnull, before, hplace⟩ := listed_run cells earlier a hlisted
    have hcall : Hooker outcomes a r org w = (true, w.allocate) :=
      Hooker_of_listed hnull hlisted outcomes r org
    have hnext : InPlace a before next := by
      change InPlace a before (Hooker outcomes a r org w).2
      rw [hcall]
      exact hplace
    refine ⟨congrArg Prod.fst hcall, ?_, before, hplace.2, ?_⟩
    · exact congrArg (fun answer => answer.2.cells) hcall
    · intro ops hops
      exact (hnext.run hops).2
  · intro hret
    obtain ⟨hpatches, hcells⟩ := Hooker_of_failure hret
    exact ⟨World.redirect_congr hpatches, hcells⟩

/-- A second hook of an address answers success, and neither runs its replacement nor writes its
cell. -/
theorem Hooker_twice :
    let w := run [.hooker ⟨some 8, none, none⟩ 1 2 0] (initial fun _ => none)
    let (ret, next) := Hooker ⟨some 9, none, none⟩ 1 3 1 w
    ret = true ∧ next.redirect 1 = some 2 ∧ next.cells 1 = none := by
  decide

end XposedJniTrace.HookUtils
