import XposedJniTrace.Hook.HookUtils
import XposedJniTrace.Library.Runs
import Mathlib.Data.List.Nodup

/-!
# Patching an address once

The invariant that the list of hooked addresses is there for: no prologue carries two patches,
and the list holds each address that is patched through `Hooker` or `HookerForSign` once. One
step keeps it exactly when the step is clean; over a run it holds in every state exactly when
every step is clean where it is taken.
-/

namespace XposedJniTrace.HookUtils

namespace World

/-- The addresses patched through `Hooker` or `HookerForSign`. -/
def hookPatched (w : World) : List Addr := w.patchedBy (·.newrep.isSome)

/-- The addresses that `InlineHookImpl` patched. -/
def inlined (w : World) : List Addr := w.patchedBy (!·.inTable)

/-- No address carries two patches, and the list holds what is patched by hooks, each once. -/
structure Sound (w : World) : Prop where
  patched_once : (w.patches.map Patch.addr).Nodup
  hooked_once : w.hooked.Nodup
  mem_hooked : ∀ a, a ∈ w.hooked ↔ a ∈ w.hookPatched

variable {w : World} {a : Addr} {kinds : Kind → Bool}

/-- An address is patched by a kind when a patch of that kind is in place. -/
theorem mem_patchedBy :
    a ∈ w.patchedBy kinds ↔ ∃ kind, ⟨a, kind⟩ ∈ w.patches ∧ kinds kind = true := by
  simp only [patchedBy, List.mem_map, List.mem_filter]
  constructor
  · intro hpatch
    obtain ⟨⟨b, kind⟩, h, rfl⟩ := hpatch
    exact ⟨kind, h⟩
  · intro hpatch
    obtain ⟨kind, h⟩ := hpatch
    exact ⟨⟨a, kind⟩, h, rfl⟩

/-- A patched address is patched by a hook or is in Dobby's table. -/
theorem mem_patches_iff :
    a ∈ w.patches.map Patch.addr ↔ a ∈ w.hookPatched ∨ a ∈ w.table := by
  rw [hookPatched, table, mem_patchedBy, mem_patchedBy, List.mem_map]
  constructor
  · intro hpatch
    obtain ⟨⟨b, kind⟩, h, rfl⟩ := hpatch
    cases kind with
    | dobbyHook r => exact .inl ⟨_, h, rfl⟩
    | dobbyInstrument => exact .inr ⟨_, h, rfl⟩
    | inlineHook r => exact .inl ⟨_, h, rfl⟩
  · intro hpatch
    rcases hpatch with ⟨kind, h, -⟩ | ⟨kind, h, -⟩
    · exact ⟨_, h, rfl⟩
    · exact ⟨_, h, rfl⟩

/-- One address does not carry patches of two kinds. -/
theorem kind_unique (h : (w.patches.map Patch.addr).Nodup) {first second : Kind}
    (h₁ : ⟨a, first⟩ ∈ w.patches) (h₂ : ⟨a, second⟩ ∈ w.patches) : first = second := by
  have := List.inj_on_of_nodup_map h h₁ h₂ rfl
  cases this
  rfl

/-- An address in Dobby's table is not patched by the other backend as well. -/
theorem not_inlined_of_table (h : (w.patches.map Patch.addr).Nodup) (htable : a ∈ w.table) :
    a ∉ w.inlined := by
  obtain ⟨kind, hkind, hin⟩ := mem_patchedBy.mp htable
  intro hinlined
  obtain ⟨other, hother, hout⟩ := mem_patchedBy.mp hinlined
  rw [kind_unique h hother hkind, hin] at hout
  cases hout

/-- What neither backend patched is not patched. -/
theorem not_patched (htable : a ∉ w.table) (hinlined : a ∉ w.inlined) :
    a ∉ w.patches.map Patch.addr := by
  intro hmem
  obtain ⟨⟨b, kind⟩, hp, rfl⟩ := List.mem_map.mp hmem
  cases hin : kind.inTable with
  | true => exact htable (mem_patchedBy.mpr ⟨kind, hp, hin⟩)
  | false => exact hinlined (mem_patchedBy.mpr ⟨kind, hp, by rw [hin]; rfl⟩)

/-- A sound state with nothing at an address stays sound when a hook is installed and listed. -/
theorem Sound.install (h : w.Sound) (hfree : a ∉ w.patches.map Patch.addr) {kind : Kind}
    (hhook : kind.newrep.isSome = true) {next : World}
    (hpatches : next.patches = ⟨a, kind⟩ :: w.patches)
    (hlist : next.hooked = w.hooked ++ [a]) : next.Sound := by
  have hnew : a ∉ w.hooked := by
    intro hmem
    exact hfree (mem_patches_iff.mpr (.inl ((h.mem_hooked a).mp hmem)))
  refine ⟨?_, ?_, ?_⟩
  · rw [hpatches, List.map_cons]
    exact List.nodup_cons.mpr ⟨hfree, h.patched_once⟩
  · rw [hlist]
    exact List.nodup_append.mpr ⟨h.hooked_once, List.nodup_singleton a, by
      intro b hb c hc heq
      rw [List.mem_singleton] at hc
      exact hnew (hc ▸ heq ▸ hb)⟩
  · intro b
    rw [hlist, List.mem_append, List.mem_singleton, h.mem_hooked, hookPatched, hookPatched,
      mem_patchedBy, mem_patchedBy, hpatches]
    constructor
    · intro hlisted
      rcases hlisted with ⟨k, hk, hsome⟩ | rfl
      · exact ⟨k, List.mem_cons_of_mem _ hk, hsome⟩
      · exact ⟨kind, List.mem_cons_self, hhook⟩
    · intro hpatch
      obtain ⟨k, hk, hsome⟩ := hpatch
      rcases List.mem_cons.mp hk with heq | hk
      · cases heq
        exact .inr rfl
      · exact .inl ⟨k, hk, hsome⟩

/-- What a state is sound by does not depend on the cells and the near-branch mode. -/
theorem Sound.congr (h : w.Sound) {next : World} (hpatches : next.patches = w.patches)
    (hlist : next.hooked = w.hooked) : next.Sound := by
  have hby : next.hookPatched = w.hookPatched := by
    rw [hookPatched, hookPatched, patchedBy, patchedBy, hpatches]
  refine ⟨?_, ?_, ?_⟩
  · rw [hpatches]
    exact h.patched_once
  · rw [hlist]
    exact h.hooked_once
  · rw [hlist, hby]
    exact h.mem_hooked

/-- A sound state stays sound when an address leaves both the patches and the list. -/
theorem Sound.remove (h : w.Sound) {next : World}
    (hpatches : next.patches = w.patches.filter (·.addr ≠ a))
    (hlist : next.hooked = w.hooked.filter (· ≠ a)) : next.Sound := by
  refine ⟨?_, ?_, ?_⟩
  · rw [hpatches]
    exact h.patched_once.sublist (List.filter_sublist.map _)
  · rw [hlist]
    exact h.hooked_once.filter _
  · intro b
    rw [hlist, List.mem_filter, h.mem_hooked, hookPatched, hookPatched, mem_patchedBy,
      mem_patchedBy, hpatches, decide_eq_true_eq]
    simp only [List.mem_filter, decide_eq_true_eq]
    constructor
    · intro hpatch
      obtain ⟨⟨kind, hkind, hsome⟩, hne⟩ := hpatch
      exact ⟨kind, ⟨hkind, hne⟩, hsome⟩
    · intro hpatch
      obtain ⟨kind, ⟨hkind, hne⟩, hsome⟩ := hpatch
      exact ⟨⟨kind, hkind, hsome⟩, hne⟩

/-- A second patch on an address is not sound. -/
theorem not_sound_of_patched {kind : Kind} (hold : a ∈ w.patches.map Patch.addr) {next : World}
    (hpatches : next.patches = ⟨a, kind⟩ :: w.patches) : ¬ next.Sound := by
  intro h
  have hnodup := h.patched_once
  rw [hpatches, List.map_cons, List.nodup_cons] at hnodup
  exact hnodup.1 hold

end World

/-- `DobbyHook` fails, or hooks an address that is not in its table. -/
theorem DobbyHook_cases (outcome : Option ℕ) (a r : Addr) (org : Cell) (w : World) :
    DobbyHook outcome a r org w = (false, w) ∨
    a ∉ w.table ∧ ∃ location,
      DobbyHook outcome a r org w = (true, w.install (.dobbyHook r) a org location) := by
  by_cases htable : a ∈ w.table
  · exact .inl (if_pos htable)
  · cases outcome with
    | none => exact .inl (if_neg htable)
    | some location => exact .inr ⟨htable, location, if_neg htable⟩

/-- What `Hooker` does with an address that is neither null nor listed: the two backends in turn,
and Dobby once more in the near-branch mode. -/
theorem Hooker_of_new (outcomes : Outcomes) {a : Addr} (r : Addr) (org : Cell) {w : World}
    (hnull : a ≠ 0) (hnew : a ∉ w.hooked) : Hooker outcomes a r org w =
      match DobbyHook outcomes.dobby a r org w.allocate with
      | (true, w) => (true, w.putPtr a)
      | (false, w) =>
        match InlineHookImpl outcomes.inlineHook a r org w with
        | (true, w) => (true, w.putPtr a)
        | (false, w) =>
          match DobbyHook outcomes.nearBranch a r org { w with nearBranch := true } with
          | (true, w) => (true, { w with nearBranch := false }.putPtr a)
          | (false, w) => (false, { w with nearBranch := false }) :=
  (if_neg hnull).trans (if_neg hnew)

/-- What `Hooker` does: nothing for null, nothing for a listed address, a hook by one of the two
backends, or, when all three attempts fail, nothing but allocating the list. -/
theorem Hooker_cases (outcomes : Outcomes) (a r : Addr) (org : Cell) (w : World) :
    (a = 0 ∧ Hooker outcomes a r org w = (false, w)) ∨
    (a ≠ 0 ∧ a ∈ w.hooked ∧ Hooker outcomes a r org w = (true, w.allocate)) ∨
    (a ≠ 0 ∧ a ∉ w.hooked ∧ ∃ kind location near,
      (kind = .dobbyHook r ∧ a ∉ w.table ∨
        kind = .inlineHook r ∧ outcomes.inlineHook ≠ none) ∧
      Hooker outcomes a r org w =
        (true, { w.install kind a org location with
          hookedList := some (w.hooked ++ [a])
          nearBranch := near })) ∨
    (a ≠ 0 ∧ a ∉ w.hooked ∧ outcomes.inlineHook = none ∧
      Hooker outcomes a r org w = (false, { w.allocate with nearBranch := false })) := by
  by_cases hnull : a = 0
  · exact .inl ⟨hnull, if_pos hnull⟩
  by_cases hlisted : a ∈ w.hooked
  · exact .inr (.inl ⟨hnull, hlisted, (if_neg hnull).trans (if_pos hlisted)⟩)
  right; right
  obtain ⟨dobby, inlineHook, nearBranch⟩ := outcomes
  have hcall := Hooker_of_new ⟨dobby, inlineHook, nearBranch⟩ r org hnull hlisted
  rcases DobbyHook_cases dobby a r org w.allocate with hfirst | ⟨htable, location, hfirst⟩
  · rw [hfirst] at hcall
    cases inlineHook with
    | some location =>
      exact .inl ⟨hnull, hlisted, .inlineHook r, location, _, .inr ⟨rfl, nofun⟩, hcall⟩
    | none =>
      rcases DobbyHook_cases nearBranch a r org { w.allocate with nearBranch := true } with
        hnear | ⟨htable, location, hnear⟩
      · simp only [InlineHookImpl, hnear] at hcall
        exact .inr ⟨hnull, hlisted, rfl, hcall⟩
      · simp only [InlineHookImpl, hnear] at hcall
        exact .inl ⟨hnull, hlisted, .dobbyHook r, location, _, .inl ⟨rfl, htable⟩, hcall⟩
  · rw [hfirst] at hcall
    exact .inl ⟨hnull, hlisted, .dobbyHook r, location, _, .inl ⟨rfl, htable⟩, hcall⟩

/-- Putting back Dobby's bytes takes away what is at the address, when nothing else is. -/
theorem restore_of_nodup {a : Addr} {patches : List Patch} (hnodup : (patches.map Patch.addr).Nodup)
    (h : ∃ p ∈ patches, p.addr = a ∧ p.kind.inTable = true) :
    restore a patches = patches.filter (·.addr ≠ a) := by
  induction patches with
  | nil =>
    obtain ⟨p, hp, -⟩ := h
    cases hp
  | cons q older ih =>
    rw [List.map_cons, List.nodup_cons] at hnodup
    obtain ⟨hfresh, hnodup⟩ := hnodup
    obtain ⟨p, hp, haddr, htable⟩ := h
    by_cases hq : q.addr = a
    · have hkeep : older.filter (·.addr ≠ a) = older := by
        apply List.filter_eq_self.mpr
        intro p hp
        have hne : p.addr ≠ a := by
          intro heq
          exact hfresh (List.mem_map.mpr ⟨p, hp, heq.trans hq.symm⟩)
        simpa using hne
      have hself : p = q := by
        rcases List.mem_cons.mp hp with heq | hmem
        · exact heq
        · exact absurd (List.mem_map.mpr ⟨p, hmem, haddr.trans hq.symm⟩) hfresh
      rw [restore, if_pos hq, if_pos (hself ▸ htable),
        List.filter_cons_of_neg (by simpa using hq), hkeep]
    · have hmem : p ∈ older := by
        rcases List.mem_cons.mp hp with heq | hmem
        · exact absurd (heq ▸ haddr) hq
        · exact hmem
      rw [restore, if_neg hq, ih hnodup ⟨p, hmem, haddr, htable⟩,
        List.filter_cons_of_pos (by simpa using hq)]

/-- A hook that is removed leaves the list, too. -/
theorem unHook_hooked (a : Addr) (w : World) :
    (unHook a w).2.hooked = w.hooked.filter (· ≠ a) := by
  unfold unHook DobbyDestroy
  split_ifs <;> cases h : w.hookedList <;> simp [World.hooked, h]

/-- A call is clean: it does not reach one of the ways in which patches and list come apart. -/
def Op.Clean (w : World) : Op → Prop
  | hooker outcomes a _ _ => a = 0 ∨ a ∈ w.hooked ∨ a ∉ w.table ∨ outcomes.inlineHook = none
  | hookerForSign outcome a _ _ => a = 0 ∨ a ∈ w.hooked ∨ outcome = none
  | addTrampoline outcome a => a ∉ w.inlined ∨ outcome = false
  | unHook a => a ∉ w.inlined

/-- `Hooker` stays sound exactly when its call is clean. -/
theorem Hooker_sound_iff {w : World} (h : w.Sound) (outcomes : Outcomes) (a r : Addr) (org : Cell) :
    (Hooker outcomes a r org w).2.Sound ↔ (Op.hooker outcomes a r org).Clean w := by
  rcases Hooker_cases outcomes a r org w with ⟨hnull, hcall⟩ | ⟨hnull, hlisted, hcall⟩ |
    ⟨hnull, hnew, kind, location, near, hkind, hcall⟩ | ⟨hnull, hnew, hinline, hcall⟩
  · rw [hcall]
    exact iff_of_true h (.inl hnull)
  · rw [hcall]
    exact iff_of_true (h.congr rfl rfl) (.inr (.inl hlisted))
  · rw [hcall]
    by_cases htable : a ∈ w.table
    · have hsome : outcomes.inlineHook ≠ none := by
        rcases hkind with ⟨-, hfree⟩ | ⟨-, hsome⟩
        · exact absurd htable hfree
        · exact hsome
      refine iff_of_false
        (World.not_sound_of_patched (World.mem_patches_iff.mpr (.inr htable)) rfl) ?_
      intro hclean
      rcases hclean with h | h | h | h
      · exact hnull h
      · exact hnew h
      · exact h htable
      · exact hsome h
    · have hfree : a ∉ w.patches.map Patch.addr := by
        rw [World.mem_patches_iff, ← h.mem_hooked]
        exact not_or.mpr ⟨hnew, htable⟩
      have hhook : kind.newrep.isSome = true := by
        rcases hkind with ⟨rfl, -⟩ | ⟨rfl, -⟩
        · rfl
        · rfl
      exact iff_of_true (h.install hfree hhook rfl rfl) (.inr (.inr (.inl htable)))
  · rw [hcall]
    exact iff_of_true (h.congr rfl rfl) (.inr (.inr (.inr hinline)))

/-- `HookerForSign` stays sound exactly when its call is clean. -/
theorem HookerForSign_sound_iff {w : World} (h : w.Sound) (outcome : Option ℕ) (a r : Addr)
    (org : Cell) :
    (HookerForSign outcome a r org w).2.Sound ↔ (Op.hookerForSign outcome a r org).Clean w := by
  by_cases hnull : a = 0
  · have hcall : HookerForSign outcome a r org w = (false, w) := if_pos hnull
    rw [hcall]
    exact iff_of_true h (.inl hnull)
  by_cases hlisted : a ∈ w.hooked
  · have hcall : HookerForSign outcome a r org w = (true, w.allocate) :=
      (if_neg hnull).trans (if_pos hlisted)
    rw [hcall]
    exact iff_of_true (h.congr rfl rfl) (.inr (.inl hlisted))
  have hcall : HookerForSign outcome a r org w = InlineHookImpl outcome a r org w.allocate :=
    (if_neg hnull).trans (if_neg hlisted)
  rw [hcall]
  cases outcome with
  | none => exact iff_of_true (h.congr rfl rfl) (.inr (.inr rfl))
  | some location =>
    -- the patch is in place and the list does not know of it
    refine iff_of_false ?_ ?_
    · intro hsound
      apply hlisted
      exact (hsound.mem_hooked a).mpr (World.mem_patchedBy.mpr ⟨_, List.mem_cons_self, rfl⟩)
    · intro hclean
      rcases hclean with h | h | h
      · exact hnull h
      · exact hlisted h
      · cases h

/-- `unHook` stays sound exactly when its call is clean. -/
theorem unHook_sound_iff {w : World} (h : w.Sound) (a : Addr) :
    (unHook a w).2.Sound ↔ (Op.unHook a).Clean w := by
  by_cases htable : a ∈ w.table
  · obtain ⟨kind, hkind, hin⟩ := World.mem_patchedBy.mp htable
    have hpatches : (unHook a w).2.patches = w.patches.filter (·.addr ≠ a) := by
      rw [unHook, DobbyDestroy, if_pos htable]
      exact restore_of_nodup h.patched_once ⟨_, hkind, rfl, hin⟩
    exact iff_of_true (h.remove hpatches (unHook_hooked a w))
      (World.not_inlined_of_table h.patched_once htable)
  have hpatches : (unHook a w).2.patches = w.patches := by
    rw [unHook, DobbyDestroy, if_neg htable]
  by_cases hinlined : a ∈ w.inlined
  · -- Dobby has nothing to put back, and the list forgets an address that stays patched
    refine iff_of_false ?_ (not_not_intro hinlined)
    intro hsound
    obtain ⟨kind, hkind, hout⟩ := World.mem_patchedBy.mp hinlined
    have hhook : kind.newrep.isSome = true := by
      cases kind with
      | dobbyHook r => rfl
      | dobbyInstrument => cases hout
      | inlineHook r => rfl
    have hmem := (hsound.mem_hooked a).mpr (World.mem_patchedBy.mpr ⟨kind, hpatches ▸ hkind, hhook⟩)
    rw [unHook_hooked, List.mem_filter, decide_eq_true_eq] at hmem
    exact hmem.2 rfl
  · have hfilter : w.patches.filter (·.addr ≠ a) = w.patches := by
      apply List.filter_eq_self.mpr
      intro p hp
      rw [decide_eq_true_eq]
      intro haddr
      exact World.not_patched htable hinlined (List.mem_map.mpr ⟨p, hp, haddr⟩)
    exact iff_of_true (h.remove (hpatches.trans hfilter.symm) (unHook_hooked a w)) hinlined

/-- `addTrampoline` stays sound exactly when its call is clean. -/
theorem addTrampoline_sound_iff {w : World} (h : w.Sound) (outcome : Bool) (a : Addr) :
    (addTrampoline outcome a w).2.Sound ↔ (Op.addTrampoline outcome a).Clean w := by
  by_cases htable : a ∈ w.table
  · have hcall : addTrampoline outcome a w = (false, w) := if_pos htable
    rw [hcall]
    exact iff_of_true h (.inl (World.not_inlined_of_table h.patched_once htable))
  cases outcome with
  | false =>
    have hcall : addTrampoline false a w = (false, w) := if_neg htable
    rw [hcall]
    exact iff_of_true h (.inr rfl)
  | true =>
    have hcall : addTrampoline true a w =
        (true, { w with patches := ⟨a, .dobbyInstrument⟩ :: w.patches }) := if_neg htable
    rw [hcall]
    by_cases hinlined : a ∈ w.inlined
    · obtain ⟨kind, hkind, -⟩ := World.mem_patchedBy.mp hinlined
      refine iff_of_false (World.not_sound_of_patched (List.mem_map.mpr ⟨_, hkind, rfl⟩) rfl) ?_
      intro hclean
      rcases hclean with hfree | hfail
      · exact hfree hinlined
      · cases hfail
    · refine iff_of_true ⟨?_, h.hooked_once, h.mem_hooked⟩ (.inl hinlined)
      exact List.nodup_cons.mpr ⟨World.not_patched htable hinlined, h.patched_once⟩

/-- One call keeps a sound state sound exactly when it is clean. -/
theorem call_sound_iff {w : World} (op : Op) (h : w.Sound) : (op.call w).2.Sound ↔ op.Clean w := by
  cases op with
  | hooker outcomes a r org => exact Hooker_sound_iff h outcomes a r org
  | hookerForSign outcome a r org => exact HookerForSign_sound_iff h outcome a r org
  | addTrampoline outcome a => exact addTrampoline_sound_iff h outcome a
  | unHook a => exact unHook_sound_iff h a

/-- The world at its start is sound. -/
theorem initial_sound (cells : Cell → Option Entry) : (initial cells).Sound :=
  ⟨List.nodup_nil, List.nodup_nil, fun _ => Iff.rfl⟩

/-- Every state of a run has each address patched at most once and lists the hooked ones, exactly
when every call is clean in the state in which it is made. -/
theorem run_sound_iff (cells : Cell → Option Entry) (ops : List Op) :
    (∀ n, (run (ops.take n) (initial cells)).Sound) ↔
      Runs.AllSteps (fun w op => (op.call w).2) (fun w op => op.Clean w) (initial cells) ops :=
  Runs.forall_take_iff_allSteps (fun _ op h => call_sound_iff op h) (initial_sound cells) ops

/-- Two calls of `HookerForSign` patch the same prologue twice. -/
theorem hookerForSign_twice :
    ¬ (run [.hookerForSign (some 8) 1 2 0, .hookerForSign (some 9) 1 2 0]
      (initial fun _ => none)).Sound := by
  intro h
  exact absurd h.patched_once (by decide)

end XposedJniTrace.HookUtils
