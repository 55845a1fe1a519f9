import XposedJniTrace.Hook.PatchOnce

/-!
# The near-branch mode

`HookUtils::startBranchTrampoline` beside the other operations, and what they leave of the mode that
it turns on. The last attempt of `Hooker` turns the mode on and then off, whether or not it was on
before: a call that comes to it in the mode ends the mode for all that follows.
-/

namespace XposedJniTrace.HookUtils

/-- The switch of the library. -/
def dobby_enable_near_branch_trampoline (w : World) : World := { w with nearBranch := true }

/-- `startBranchTrampoline` -/
def startBranchTrampoline (w : World) : World := dobby_enable_near_branch_trampoline w

/-- A call of `startBranchTrampoline`, or of one of the other operations. -/
inductive Act where
  | startBranchTrampoline
  | call (op : Op)
  deriving DecidableEq

/-- The state behind a call. -/
def Act.step (w : World) : Act → World
  | startBranchTrampoline => HookUtils.startBranchTrampoline w
  | call op => (op.call w).2

/-- The state behind a sequence of calls. -/
def runActs (acts : List Act) (w : World) : World := acts.foldl Act.step w

/-- The operations leave the mode as they find it, and once it is started every call of
`addTrampoline` runs in it. -/
structure ModeKept (acts : List Act) (w : World) : Prop where
  frame : ∀ before op after, acts = before ++ .call op :: after →
    (runActs (before ++ [.call op]) w).nearBranch = (runActs before w).nearBranch
  started : ∀ before middle outcome dysym after,
    acts = before ++ .startBranchTrampoline :: middle ++
      .call (.addTrampoline outcome dysym) :: after →
      (runActs (before ++ .startBranchTrampoline :: middle) w).nearBranch = true

/-- An operation comes to the last attempt of `Hooker`: neither backend has patched an address that
is not in the list. -/
def Op.FallsBack (w : World) : Op → Prop
  | hooker outcomes dysym _ _ =>
    dysym ≠ 0 ∧ dysym ∉ w.hooked ∧ (dysym ∈ w.table ∨ outcomes.dobby = none) ∧
      outcomes.inlineHook = none
  | _ => False

/-- A call does not come to the last attempt while the mode is on. -/
def Act.Keeps (w : World) : Act → Prop
  | startBranchTrampoline => True
  | call op => w.nearBranch = true → ¬ op.FallsBack w

section Frame

variable (w : World)

/-- The mode is on behind the switch. -/
theorem startBranchTrampoline_on : (startBranchTrampoline w).nearBranch = true := rfl

/-- A hook leaves the mode as it is. -/
theorem nearBranch_InlineHookImpl (outcome : Option ℕ) (origin replace : Addr) (backup : Cell) :
    (InlineHookImpl outcome origin replace backup w).2.nearBranch = w.nearBranch := by
  cases outcome with
  | none => rfl
  | some location => rfl

/-- An instrumented address leaves the mode as it is. -/
theorem nearBranch_DobbyInstrument (outcome : Bool) (address : Addr) :
    (DobbyInstrument outcome address w).2.nearBranch = w.nearBranch := by
  rw [DobbyInstrument]
  split_ifs
  · rfl
  · rfl
  · rfl

/-- A hook that is removed leaves the mode as it is. -/
theorem nearBranch_unHook (sym : Addr) : (unHook sym w).2.nearBranch = w.nearBranch := by
  rw [unHook, DobbyDestroy]
  split_ifs
  · rfl
  · rfl

/-- `HookerForSign` leaves the mode as it is. -/
theorem nearBranch_HookerForSign (outcome : Option ℕ) (dysym newrep : Addr) (org : Cell) :
    (HookerForSign outcome dysym newrep org w).2.nearBranch = w.nearBranch := by
  rw [HookerForSign]
  dsimp only
  split_ifs
  · rfl
  · rfl
  · exact nearBranch_InlineHookImpl w.allocate outcome dysym newrep org

/-- Dobby fails on an address in its table, and where it is to fail. -/
theorem DobbyHook_fails {outcome : Option ℕ} {address : Addr}
    (h : address ∈ w.table ∨ outcome = none) (newrep : Addr) (org : Cell) :
    DobbyHook outcome address newrep org w = (false, w) := by
  rcases DobbyHook_cases outcome address newrep org w with hfails | ⟨htable, location, hhooks⟩
  · exact hfails
  · obtain rfl := h.resolve_left htable
    exact if_neg htable

/-- The last attempt ends with the mode turned off. -/
theorem nearBranch_Hooker_of_fallsBack {outcomes : Outcomes} {dysym newrep : Addr} {org : Cell}
    (h : (Op.hooker outcomes dysym newrep org).FallsBack w) :
    (Hooker outcomes dysym newrep org w).2.nearBranch = false := by
  obtain ⟨hnull, hnew, hdobby, hinline⟩ := h
  have hfails := DobbyHook_fails w.allocate hdobby newrep org
  rw [Hooker_of_new outcomes newrep org hnull hnew, hfails, hinline]
  simp only [InlineHookImpl]
  rcases DobbyHook_cases outcomes.nearBranch dysym newrep org { w.allocate with nearBranch := true }
    with hnear | ⟨-, location, hnear⟩
  · rw [hnear]
  · rw [hnear]
    rfl

/-- A call of `Hooker` that does not come to its last attempt leaves the mode alone. -/
theorem nearBranch_Hooker_of_not {outcomes : Outcomes} {dysym newrep : Addr} {org : Cell}
    (h : ¬ (Op.hooker outcomes dysym newrep org).FallsBack w) :
    (Hooker outcomes dysym newrep org w).2.nearBranch = w.nearBranch := by
  by_cases hnull : dysym = 0
  · rw [Hooker, if_pos hnull]
  by_cases hlisted : dysym ∈ w.hooked
  · have hcall : Hooker outcomes dysym newrep org w = (true, w.allocate) :=
      (if_neg hnull).trans (if_pos hlisted)
    rw [hcall]
    rfl
  rw [Hooker_of_new outcomes newrep org hnull hlisted]
  rcases DobbyHook_cases outcomes.dobby dysym newrep org w.allocate with
    hfails | ⟨-, location, hhooks⟩
  · rw [hfails]
    cases hinline : outcomes.inlineHook with
    | some location => rfl
    | none =>
      have hdobby : ¬ (dysym ∈ w.table ∨ outcomes.dobby = none) := fun hdobby =>
        h ⟨hnull, hlisted, hdobby, hinline⟩
      obtain ⟨htable, hsome⟩ := not_or.mp hdobby
      obtain ⟨location, hlocation⟩ := Option.ne_none_iff_exists'.mp hsome
      have hhooks : DobbyHook outcomes.dobby dysym newrep org w.allocate =
          (true, w.allocate.install (.dobbyHook newrep) dysym org location) := by
        rw [hlocation]
        exact if_neg htable
      rw [hhooks] at hfails
      cases hfails
  · rw [hhooks]
    rfl

/-- What an operation leaves of the mode. -/
theorem Op.nearBranch_call (op : Op) :
    (¬ op.FallsBack w ∧ (op.call w).2.nearBranch = w.nearBranch) ∨
      (op.FallsBack w ∧ (op.call w).2.nearBranch = false) := by
  cases op with
  | hooker outcomes dysym newrep org =>
    by_cases hfalls : (Op.hooker outcomes dysym newrep org).FallsBack w
    · exact .inr ⟨hfalls, nearBranch_Hooker_of_fallsBack w hfalls⟩
    · exact .inl ⟨hfalls, nearBranch_Hooker_of_not w hfalls⟩
  | hookerForSign outcome dysym newrep org =>
    exact .inl ⟨id, nearBranch_HookerForSign w outcome dysym newrep org⟩
  | addTrampoline outcome dysym => exact .inl ⟨id, nearBranch_DobbyInstrument w outcome dysym⟩
  | unHook sym => exact .inl ⟨id, nearBranch_unHook w sym⟩

/-- An operation leaves the mode as it finds it unless it comes to the last attempt in the mode. -/
theorem Op.nearBranch_eq_iff (op : Op) :
    (op.call w).2.nearBranch = w.nearBranch ↔ (Act.call op).Keeps w := by
  rw [Act.Keeps]
  rcases op.nearBranch_call w with ⟨hstays, hmode⟩ | ⟨hfalls, hmode⟩
  · exact iff_of_true hmode fun _ => hstays
  · rw [hmode]
    cases w.nearBranch with
    | false => exact iff_of_true rfl Bool.noConfusion
    | true => exact iff_of_false Bool.noConfusion fun h => h rfl hfalls

end Frame

section Run

/-- The calls of a run keep the mode exactly when each operation leaves it as it finds it. -/
theorem allSteps_keeps_iff (acts : List Act) (w : World) :
    Runs.AllSteps Act.step (fun w act => act.Keeps w) w acts ↔
      ∀ before op after, acts = before ++ .call op :: after →
        (runActs (before ++ [.call op]) w).nearBranch = (runActs before w).nearBranch := by
  induction acts generalizing w with
  | nil => exact iff_of_true trivial fun before op after hsplit => by simp at hsplit
  | cons act rest ih =>
    rw [Runs.AllSteps, ih]
    constructor
    · intro h before op after hsplit
      cases before with
      | nil =>
        obtain ⟨rfl, -⟩ := List.cons.inj hsplit
        exact (op.nearBranch_eq_iff w).mpr h.1
      | cons first before =>
        obtain ⟨rfl, hrest⟩ := List.cons.inj hsplit
        exact h.2 before op after hrest
    · intro h
      refine ⟨?_, fun before op after hsplit => h (act :: before) op after (by rw [hsplit]; rfl)⟩
      cases act with
      | startBranchTrampoline => trivial
      | call op => exact (op.nearBranch_eq_iff w).mp (h [] op rest rfl)

/-- A call that leaves the mode alone leaves it on. -/
theorem Act.Keeps.nearBranch_on {act : Act} {w : World} (h : act.Keeps w)
    (hon : w.nearBranch = true) : (Act.step w act).nearBranch = true := by
  cases act with
  | startBranchTrampoline => rfl
  | call op => exact ((op.nearBranch_eq_iff w).mpr h).trans hon

/-- The mode is kept by every run exactly when no call of `Hooker` comes to its last attempt while
the mode is on. -/
theorem modeKept_iff (acts : List Act) (w : World) :
    ModeKept acts w ↔ Runs.AllSteps Act.step (fun w act => act.Keeps w) w acts := by
  constructor
  · intro h
    exact (allSteps_keeps_iff acts w).mpr h.frame
  · intro h
    refine ⟨(allSteps_keeps_iff acts w).mp h, ?_⟩
    intro before middle outcome dysym after hsplit
    rw [hsplit, List.append_assoc] at h
    have hmiddle := (Runs.allSteps_append.mp (Runs.allSteps_append.mp h).2).1.2
    have hrun : runActs (before ++ .startBranchTrampoline :: middle) w =
        runActs middle (startBranchTrampoline (runActs before w)) := by
      rw [runActs, List.foldl_append]
      rfl
    rw [hrun]
    have hstep (w : World) (act : Act) (hon : w.nearBranch = true) (hkeeps : act.Keeps w) :
        (Act.step w act).nearBranch = true := hkeeps.nearBranch_on hon
    exact Runs.AllSteps.foldl hstep (startBranchTrampoline_on _) hmiddle

/-- An address that no backend can patch ends the mode, and the next method is instrumented without
it. -/
theorem mode_lost :
    ¬ ModeKept [.startBranchTrampoline, .call (.hooker ⟨none, none, none⟩ 1 2 0),
      .call (.addTrampoline true 3)] (initial fun _ => none) := by
  intro h
  exact absurd (h.started [] [.call (.hooker ⟨none, none, none⟩ 1 2 0)] true 3 [] rfl) (by decide)

end Run

end XposedJniTrace.HookUtils
