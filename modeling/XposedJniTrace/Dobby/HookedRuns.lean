import XposedJniTrace.Dobby.TrampolineLeads

/-!
# Runs of hooks

Over any run of `DobbyHook`, `DobbyDestroy` and switches of the near mode, on functions that do not
overlap: each function in the list leads to its replacement, its relocated code does what its first
instructions did, and all other code of the program is as it was in the beginning.
-/

namespace XposedJniTrace.Dobby

open Arm64 ByteMemory LiteralPool Span WordFields

/-- The first instructions of a function, as many as a trampoline can take. -/
def prologue (address : ℕ) : Span := ⟨address, 16⟩

/-- What is written over for an entry. -/
def InterceptEntry.patched (e : InterceptEntry) : Span := ⟨e.patched_addr, e.origin_insns.length⟩

/-- An entry with its trampoline and its relocated code in place. -/
structure Installed (mem₀ : Memory) (program blocks : List Span) (mem : Memory) (e : InterceptEntry)
    (words code : List ℕ) : Prop where
  within : ∃ t ∈ program, (prologue e.patched_addr).Within t
  aligned : e.patched_addr % 4 = 0 ∧ e.replace_func % 4 = 0
  bounded : e.patched_addr < 2 ^ 62 ∧ e.replace_func < 2 ^ 62
  trampoline : TrampolineAt mem blocks e.patched_addr e.replace_func words
  written : Holds mem e.patched_addr (bytesOf words)
  saved : e.origin_insns = read mem₀ e.patched_addr (4 * words.length)
  generated : GenRelocateCodeAndBranch e.patched_addr
    (wordsAt mem₀ e.patched_addr words.length) = some code
  block : ⟨e.relocated_addr, 4 * code.length⟩ ∈ blocks
  relocated : Holds mem e.relocated_addr (bytesOf code)

/-- What holds of a state that hooks have led to from the memory `mem₀`. -/
structure Consistent (mem₀ : Memory) (program blocks : List Span) (w : World) : Prop where
  sound : Sound program w.arenas blocks
  installed : ∀ e ∈ w.entries, ∃ words code, Installed mem₀ program blocks w.mem e words code
  apart : w.entries.Pairwise fun e f => (prologue e.patched_addr).Apart (prologue f.patched_addr)
  pristine : ∀ t ∈ program, ∀ a, t.Has a → (∀ e ∈ w.entries, ¬ e.patched.Has a) → w.mem a = mem₀ a

section Memory

variable {mem mem' mem₀ : Memory} {program blocks blocks' : List Span} {e : InterceptEntry}
  {words code : List ℕ}

/-- The same words are read where the memories agree. -/
theorem wordsAt_congr {address n : ℕ} (h : AgreeOn mem mem' address (4 * n)) :
    wordsAt mem address n = wordsAt mem' address n := by
  apply List.map_congr_left
  intro i hi
  have hlt := List.mem_range.mp hi
  rw [number, number, read_congr (h.mono (by omega) (by omega))]

/-- What is read are words. -/
theorem wordsAt_lt {address n : ℕ} : ∀ w ∈ wordsAt mem address n, w < 2 ^ 32 := by
  intro w hw
  obtain ⟨i, -, rfl⟩ := List.mem_map.mp hw
  exact number_lt mem (address + 4 * i) 4

/-- Memories that agree at the addresses of a span agree on it. -/
theorem agreeOn_of_not_has {s : Span} (h : ∀ a, s.Has a → mem a = mem' a) :
    AgreeOn mem mem' s.start s.size :=
  fun a hle hlt => h a ⟨hle, hlt⟩

/-- A trampoline has one to four instructions. -/
theorem Installed.length_le (h : Installed mem₀ program blocks mem e words code) :
    0 < words.length ∧ words.length ≤ 4 := h.trampoline.length_le (by have := h.bounded.2; omega)

/-- What is written over is the place of the trampoline. -/
theorem Installed.patched_eq (h : Installed mem₀ program blocks mem e words code) :
    e.patched = ⟨e.patched_addr, 4 * words.length⟩ := by
  rw [InterceptEntry.patched, h.saved, length_read]

/-- What is written over is at the start of the function. -/
theorem Installed.patched_within (h : Installed mem₀ program blocks mem e words code) :
    e.patched.Within (prologue e.patched_addr) := by
  have hlength := h.length_le
  rw [h.patched_eq]
  refine ⟨Nat.le_refl _, ?_⟩
  simp only [stop, prologue]
  omega

/-- An entry stays in place while its trampoline and the blocks stay as they are. -/
theorem Installed.congr (h : Installed mem₀ program blocks mem e words code)
    (hsubset : blocks ⊆ blocks')
    (hpatched : ∀ a, e.patched.Has a → mem a = mem' a)
    (hblocks : ∀ block ∈ blocks, ∀ a, block.Has a → mem a = mem' a) :
    Installed mem₀ program blocks' mem' e words code where
  within := h.within
  aligned := h.aligned
  bounded := h.bounded
  trampoline := h.trampoline.congr hsubset fun block hblock =>
    agreeOn_of_not_has (hblocks block hblock)
  written := by
    rw [h.patched_eq] at hpatched
    apply h.written.congr
    rw [length_bytesOf]
    exact agreeOn_of_not_has hpatched
  saved := h.saved
  generated := h.generated
  block := hsubset h.block
  relocated := by
    apply h.relocated.congr
    rw [length_bytesOf]
    exact agreeOn_of_not_has (hblocks _ h.block)

end Memory

/-- A call of `DobbyHook` on a function of the program that no other entry overlaps, where `ADRP`
reaches the replacement and the kernel is taken at its word. -/
structure HookAdmitted (page : ℕ) (program : List Span) (kernel : Kernel)
    (address replace_func : ℕ) (w : World) : Prop where
  within : ∃ t ∈ program, (prologue address).Within t
  aligned : address % 4 = 0 ∧ replace_func % 4 = 0
  bounded : address < 2 ^ 62 ∧ replace_func < 2 ^ 62
  apart : ∀ e ∈ w.entries, e.patched_addr ≠ address →
    (prologue e.patched_addr).Apart (prologue address)
  normal : AdrpReaches address replace_func
  forward : w.near_branch_trampoline = true → ∀ addr, address ≤ addr + ARM64_B_XXX_RANGE →
    addr ≤ address + ARM64_B_XXX_RANGE → AdrpReaches addr replace_func
  near : w.near_branch_trampoline = true → NearKernel page kernel program address w.arenas
  exec : ∀ code, GenRelocateCodeAndBranch address (wordsAt w.mem address
      (GenerateTrampolineBuffer page kernel address replace_func w).result.length) = some code →
    ExecAdmitted page (4 * code.length) kernel.mapped program
      (GenerateTrampolineBuffer page kernel address replace_func w).arenas

section Hook

variable {mem₀ : Memory} {program blocks : List Span} {w w' : World} {kernel : Kernel}
  {page address replace_func : ℕ}
  {e : InterceptEntry}

/-- An address that is not found has no entry. -/
theorem find_none (h : w.find address = none) : ∀ e ∈ w.entries, e.patched_addr ≠ address := by
  intro e he
  have hnot := List.find?_eq_none.mp h e he
  simpa using hnot

/-- What a call of `DobbyHook` can do, unless the process ends in it. -/
theorem DobbyHook_cases {ok : Bool}
    (h : DobbyHook page kernel address replace_func w = some (ok, w')) :
    (ok = false ∧ w' = w) ∨ (ok = true ∧ address ≠ 0 ∧ w.find address = none ∧
      ∃ trampoline code block arenas, trampoline =
        GenerateTrampolineBuffer page kernel address replace_func w ∧
        GenRelocateCodeAndBranch address (wordsAt trampoline.mem address trampoline.result.length) =
          some code ∧
        allocateExecBlock page (4 * code.length) kernel.mapped trampoline.arenas =
          some (block, arenas) ∧
        w' = World.add { w with
          mem := DobbyCodePatch (DobbyCodePatch trampoline.mem block.start (bytesOf code)) address
            (bytesOf trampoline.result)
          arenas := arenas } ⟨address, replace_func, block.start,
            read (DobbyCodePatch trampoline.mem block.start (bytesOf code)) address
              (4 * trampoline.result.length)⟩) := by
  unfold DobbyHook at h
  split_ifs at h with hnull hpermission
  · cases h
    exact .inl ⟨rfl, rfl⟩
  · cases h
    exact .inl ⟨rfl, rfl⟩
  cases hfind : w.find address with
  | some entry =>
    rw [hfind] at h
    cases h
    exact .inl ⟨rfl, rfl⟩
  | none =>
    rw [hfind] at h
    obtain ⟨relocated, hrelocated, heq⟩ := Option.map_eq_some_iff.mp h
    obtain ⟨code, hcode, hblock⟩ := Option.bind_eq_some_iff.mp hrelocated
    obtain ⟨⟨block, arenas⟩, halloc, rfl⟩ := Option.map_eq_some_iff.mp hblock
    cases heq
    exact .inr ⟨rfl, hnull, rfl, _, code, block, arenas, rfl, hcode, halloc, rfl⟩

/-- Code that the program has outside the entries is as in the beginning. -/
theorem Consistent.pristine_prologue (h : Consistent mem₀ program blocks w)
    (hwithin : ∃ t ∈ program, (prologue address).Within t)
    (hapart : ∀ e ∈ w.entries, (prologue e.patched_addr).Apart (prologue address)) :
    ∀ a, (prologue address).Has a → w.mem a = mem₀ a := by
  intro a ha
  obtain ⟨t, ht, hin⟩ := hwithin
  apply h.pristine t ht a (hin.has ha)
  intro e he hhas
  obtain ⟨words, code, hinstalled⟩ := h.installed e he
  exact (hapart e he).not_has (hinstalled.patched_within.has hhas) ha

/-- What changes only its own code and new blocks leaves the other entries in place. -/
theorem Consistent.add (h : Consistent mem₀ program blocks w) {new : List Span}
    {arenas : List MemoryArena} {mem : Memory}
    {words code : List ℕ} (hsound : Sound program arenas (new ++ blocks))
    (hinstalled : Installed mem₀ program (new ++ blocks) mem e words code)
    (hapart : ∀ f ∈ w.entries, (prologue f.patched_addr).Apart (prologue e.patched_addr))
    (hmem : ∀ a, ¬ e.patched.Has a → (∀ block ∈ new, ¬ block.Has a) → w.mem a = mem a) :
    Consistent mem₀ program (new ++ blocks)
      (World.add { w with mem := mem, arenas := arenas } e) := by
  obtain ⟨t, ht, hin⟩ := hinstalled.within
  have hpatched := hinstalled.patched_within
  have hclear : ∀ block ∈ new ++ blocks, ∀ s ∈ program, block.Apart s := fun block hblock s hs =>
    hsound.block_clear hblock hs
  constructor
  · exact hsound
  · rw [World.add, List.forall_mem_append, List.forall_mem_singleton]
    refine ⟨fun f hf => ?_, words, code, hinstalled⟩
    obtain ⟨words', code', hold⟩ := h.installed f hf
    obtain ⟨s, hs, hin'⟩ := hold.within
    refine ⟨words', code', hold.congr (List.subset_append_right new blocks) ?_ ?_⟩
    · intro a ha
      have hprologue := hold.patched_within.has ha
      apply hmem a
      · exact fun he => (hapart f hf).not_has hprologue (hpatched.has he)
      · exact fun b hb hhas => (hclear b (List.mem_append_left _ hb) s hs).not_has hhas
          (hin'.has hprologue)
    · intro block hblock a ha
      have hnew := (List.pairwise_append.mp hsound.blocks_apart).2.2
      apply hmem a
      · exact fun he => (hclear block (List.mem_append_right _ hblock) t ht).not_has ha
          (hin.has (hpatched.has he))
      · exact fun b hb hhas => (hnew b hb block hblock).not_has hhas ha
  · rw [World.add, List.pairwise_append]
    refine ⟨h.apart, List.pairwise_singleton _ _, fun f hf e' he' => ?_⟩
    rw [List.mem_singleton.mp he']
    exact hapart f hf
  · intro s hs a ha hnone
    rw [World.add, List.forall_mem_append, List.forall_mem_singleton] at hnone
    have hsame := hmem a hnone.2 fun b hb hhas =>
      (hclear b (List.mem_append_left _ hb) s hs).not_has hhas ha
    exact hsame.symm.trans (h.pristine s hs a ha hnone.1)

/-- A successful hook keeps what holds, and adds its entry. -/
theorem Consistent.hook (hpage : 0 < page) (hfour : page % 4 = 0)
    (hprogram : ∀ s ∈ program, 0 < s.size)
    (h : Consistent mem₀ program blocks w)
    (hadmitted : HookAdmitted page program kernel address replace_func w)
    (hhook : DobbyHook page kernel address replace_func w = some (true, w')) :
    ∃ blocks', Consistent mem₀ program blocks' w' := by
  obtain ⟨hfalse, -⟩ | ⟨-, -, hfind, trampoline, code, block, arenas, htrampolineEq, hcode,
      halloc, rfl⟩ :=
    DobbyHook_cases hhook
  · cases hfalse
  have hapart : ∀ e ∈ w.entries, (prologue e.patched_addr).Apart (prologue address) := fun e he =>
    hadmitted.apart e he (find_none hfind e he)
  have hpristine := h.pristine_prologue hadmitted.within hapart
  obtain ⟨t, ht, hin⟩ := hadmitted.within
  obtain ⟨new, ⟨hsound, hmem⟩, htrampoline⟩ :=
    GenerateTrampolineBuffer_adds hpage hfour hprogram h.sound
    hadmitted.near hadmitted.normal hadmitted.forward
  have hexec := hadmitted.exec
  rw [← htrampolineEq] at hsound hmem htrampoline hexec
  have hlength := htrampoline.length_le (by have := hadmitted.bounded.2; omega)
  have hclear : ∀ b ∈ new ++ blocks, b.Apart (prologue address) := fun b hb =>
    (hsound.block_clear hb ht).mono .refl hin
  -- the trampoline is not written yet when the instructions are read
  have hsame : AgreeOn trampoline.mem mem₀ address (4 * trampoline.result.length) := by
    intro a hle hlt
    have ha : (prologue address).Has a := ⟨hle, by simp only [stop, prologue]; omega⟩
    rw [hmem a fun b hb hhas => (hclear b (List.mem_append_left _ hb)).not_has hhas ha]
    exact hpristine a ha
  have hbefore : AgreeOn w.mem mem₀ address (4 * trampoline.result.length) := fun a hle hlt =>
    hpristine a ⟨hle, by simp only [stop, prologue]; omega⟩
  rw [wordsAt_congr hsame] at hcode
  rw [wordsAt_congr hbefore] at hexec
  obtain ⟨block', arenas', halloc', hsize, hsound'⟩ :=
    allocateExecBlock_sound hpage hsound (hexec code hcode)
  rw [halloc] at halloc'
  cases halloc'
  obtain ⟨hfresh, -⟩ := List.pairwise_cons.mp hsound'.blocks_apart
  have hcodeClear : block.Apart (prologue address) :=
    (hsound'.block_clear List.mem_cons_self ht).mono .refl hin
  have hcodeMem : ∀ a, ¬ block.Has a →
      DobbyCodePatch trampoline.mem block.start (bytesOf code) a = trampoline.mem a := fun a ha =>
    patch_outside hsize ha
  have hpatch : Span.Within ⟨address, 4 * trampoline.result.length⟩ (prologue address) := by
    refine ⟨Nat.le_refl _, ?_⟩
    simp only [stop, prologue]
    omega
  have hpatchMem : ∀ (mem : Memory) (a : ℕ), ¬ Span.Has ⟨address, 4 * trampoline.result.length⟩ a →
      DobbyCodePatch mem address (bytesOf trampoline.result) a = mem a := fun mem a ha =>
    @patch_outside mem ⟨address, 4 * trampoline.result.length⟩ trampoline.result rfl a ha
  have horigin : read (DobbyCodePatch trampoline.mem block.start (bytesOf code)) address
      (4 * trampoline.result.length) = read mem₀ address (4 * trampoline.result.length) := by
    apply read_congr
    intro a hle hlt
    rw [hcodeMem a fun hhas => hcodeClear.not_has hhas (hpatch.has ⟨hle, hlt⟩)]
    exact hsame a hle hlt
  have hblock : (⟨block.start, 4 * code.length⟩ : Span) = block := by rw [← hsize]
  refine ⟨block :: new ++ blocks,
    h.add hsound' ⟨hadmitted.within, hadmitted.aligned, hadmitted.bounded, ?_, holds_write,
    horigin, hcode, by simp [hblock], ?_⟩ hapart ?_⟩
  · -- the trampoline needs nothing of the block for the relocated code
    apply htrampoline.congr (List.subset_cons_self block _)
    intro b hb
    apply agreeOn_of_not_has
    intro a ha
    rw [hpatchMem _ a fun hhas => (hclear b hb).not_has ha (hpatch.has hhas),
      hcodeMem a ((hfresh b hb).symm.not_has ha)]
  · have hheld : Holds (DobbyCodePatch trampoline.mem block.start (bytesOf code)) block.start
      (bytesOf code) :=
      holds_write
    apply hheld.congr
    rw [length_bytesOf, ← hsize]
    apply agreeOn_of_not_has
    intro a ha
    rw [hpatchMem _ a fun hhas => hcodeClear.not_has ha (hpatch.has hhas)]
  · intro a ha hnew
    rw [InterceptEntry.patched, horigin, length_read] at ha
    rw [hpatchMem _ a ha, hcodeMem a (hnew block List.mem_cons_self),
      hmem a fun b hb => hnew b (List.mem_cons_of_mem block hb)]

/-- Removing an entry puts back what it was written over, and leaves the others in place. -/
theorem Consistent.destroy (h : Consistent mem₀ program blocks w) (address : ℕ) :
    Consistent mem₀ program blocks (DobbyDestroy address w).2 := by
  unfold DobbyDestroy
  cases hfind : w.find address with
  | none => exact h
  | some e =>
    obtain ⟨hat, front, back, hentries, hfront⟩ := List.find?_eq_some_iff_append.mp hfind
    have hremoved : w.entries.eraseP (fun entry => decide (entry.patched_addr = address)) =
        front ++ back := by
      have hnot : ∀ f ∈ front, ¬ decide (f.patched_addr = address) = true :=
        fun f hf => by simpa using hfront f hf
      rw [hentries, List.eraseP_append_right _ hnot]
      simp [hat]
    have haddr : e.patched_addr = address := by simpa using hat
    subst haddr
    obtain ⟨words, code, he⟩ := h.installed e (by simp [hentries])
    obtain ⟨t, ht, hin⟩ := he.within
    have hpatched := he.patched_within
    have houtside : ∀ a, ¬ e.patched.Has a →
        w.mem a = DobbyCodePatch w.mem e.patched_addr e.origin_insns a := by
      intro a ha
      symm
      apply write_outside
      simp only [InterceptEntry.patched, Has, stop, not_and, Nat.not_lt] at ha
      omega
    have hrestored : ∀ a, e.patched.Has a →
        DobbyCodePatch w.mem e.patched_addr e.origin_insns a = mem₀ a := by
      rintro a ⟨hlow, hhigh⟩
      rw [he.patched_eq, stop] at hhigh
      rw [DobbyCodePatch, he.saved]
      exact write_read_self hlow hhigh
    have hapart := h.apart
    rw [hentries, List.pairwise_append, List.pairwise_cons] at hapart
    obtain ⟨hfrontApart, ⟨hback, hbackApart⟩, hacross⟩ := hapart
    have hothers : ∀ f ∈ front ++ back,
        (prologue f.patched_addr).Apart (prologue e.patched_addr) := by
      intro f hf
      rcases List.mem_append.mp hf with hf | hf
      · exact hacross f hf e List.mem_cons_self
      · exact (hback f hf).symm
    have hrest : (World.remove { w with mem := DobbyCodePatch w.mem e.patched_addr e.origin_insns }
        e.patched_addr).entries = front ++ back := hremoved
    change Consistent mem₀ program blocks
      (World.remove { w with mem := DobbyCodePatch w.mem e.patched_addr e.origin_insns }
        e.patched_addr)
    constructor
    · exact h.sound
    · intro f hf
      rw [hrest] at hf
      obtain ⟨words', code', hold⟩ := h.installed f (by
        rw [hentries]
        rcases List.mem_append.mp hf with hf | hf <;> simp [hf])
      refine ⟨words', code', hold.congr (List.Subset.refl _) ?_ ?_⟩
      · intro a ha
        exact houtside a fun hhas =>
          (hothers f hf).not_has (hold.patched_within.has ha) (hpatched.has hhas)
      · intro block hblock a ha
        exact houtside a fun hhas =>
          (h.sound.block_clear hblock ht).not_has ha (hin.has (hpatched.has hhas))
    · rw [hrest, List.pairwise_append]
      exact ⟨hfrontApart, hbackApart, fun f hf g hg => hacross f hf g (List.mem_cons_of_mem e hg)⟩
    · intro s hs a ha hnone
      rw [hrest] at hnone
      by_cases hhas : e.patched.Has a
      · exact hrestored a hhas
      · refine (houtside a hhas).symm.trans (h.pristine s hs a ha fun f hf => ?_)
        rw [hentries, List.mem_append, List.mem_cons] at hf
        rcases hf with hf | rfl | hf
        · exact hnone f (List.mem_append_left _ hf)
        · exact hhas
        · exact hnone f (List.mem_append_right _ hf)

end Hook

section Run

variable {mem₀ : Memory} {program blocks : List Span} {w w' : World} {page : ℕ} {ops : List Op}

/-- Each hook of a run is admitted where it is made. -/
def RunAdmitted (page : ℕ) (program : List Span) : World → List Op → Prop
  | _, [] => True
  | w, op :: ops =>
    (match op with
      | .hook kernel address replace_func => HookAdmitted page program kernel address replace_func w
      | _ => True) ∧
    match w.step page op with
    | none => True
    | some w => RunAdmitted page program w ops

/-- A step that is admitted keeps the world consistent. -/
theorem Consistent.step (hpage : 0 < page) (hfour : page % 4 = 0)
    (hprogram : ∀ s ∈ program, 0 < s.size) {op : Op}
    (h : Consistent mem₀ program blocks w) (hadmitted : RunAdmitted page program w (op :: ops))
    (hstep : w.step page op = some w') : ∃ blocks', Consistent mem₀ program blocks' w' := by
  cases op with
  | hook kernel address replace_func =>
    obtain ⟨⟨ok, w''⟩, hhook, rfl⟩ := Option.map_eq_some_iff.mp hstep
    obtain ⟨rfl, rfl⟩ | ⟨rfl, -⟩ := DobbyHook_cases hhook
    · exact ⟨blocks, h⟩
    · exact h.hook hpage hfour hprogram hadmitted.1 hhook
  | destroy address =>
    cases hstep
    exact ⟨blocks, h.destroy address⟩
  | nearBranch enabled =>
    cases hstep
    exact ⟨blocks, h.sound, h.installed, h.apart, h.pristine⟩

/-- A run that is admitted keeps the world consistent. -/
theorem Consistent.run (hpage : 0 < page) (hfour : page % 4 = 0)
    (hprogram : ∀ s ∈ program, 0 < s.size)
    (h : Consistent mem₀ program blocks w) (hadmitted : RunAdmitted page program w ops)
    (hrun : w.run page ops = some w') :
    ∃ blocks', Consistent mem₀ program blocks' w' := by
  induction ops generalizing w blocks with
  | nil =>
    cases hrun
    exact ⟨blocks, h⟩
  | cons op ops ih =>
    obtain ⟨next, hstep, hrest⟩ := Option.bind_eq_some_iff.mp hrun
    obtain ⟨blocks', hnext⟩ := h.step hpage hfour hprogram hadmitted hstep
    have hadmitted' := hadmitted.2
    rw [hstep] at hadmitted'
    exact ih hnext hadmitted' hrest

/-- The state before the first call. -/
def World.start (mem : Memory) : World := ⟨mem, [], [], false⟩

/-- The world without entries is consistent. -/
theorem Consistent.start (mem : Memory) (program : List Span) :
    Consistent mem program [] (.start mem) :=
  ⟨.empty program, nofun, .nil, fun _ _ _ _ _ => rfl⟩

/-- The entry that relocated code begins with. -/
theorem relocatedAddress_self (src dst : ℕ) (insns : List ℕ) :
    relocatedAddress src dst insns src = dst := by
  simp [relocatedAddress, chunks]

/-- A function of zeros is hooked, and a page away is its replacement. -/
theorem start_hook_admitted : RunAdmitted 4096 [⟨0x40000000, 64⟩] (.start fun _ => 0)
    [.hook ⟨true, [], true, [], true, 0x50000000⟩ 0x40000000 0x40001000] := by
  have hlength : (GenRelocateCodeAndBranch 0x40000000 (wordsAt (fun _ => 0) 0x40000000
      (GenerateTrampolineBuffer 4096 ⟨true, [], true, [], true, 0x50000000⟩ 0x40000000 0x40001000
        (.start fun _ => 0)).result.length)).map List.length = some 7 := by decide +kernel
  refine ⟨⟨⟨_, List.mem_cons_self, by decide, by decide⟩, by decide, by decide,
    nofun, by unfold AdrpReaches; decide, nofun, nofun, fun code hcode => ?_⟩, by split <;> trivial⟩
  have hcode' : (GenRelocateCodeAndBranch 0x40000000 (wordsAt (fun _ => 0) 0x40000000
      (GenerateTrampolineBuffer 4096 ⟨true, [], true, [], true, 0x50000000⟩ 0x40000000 0x40001000
        (.start fun _ => 0)).result.length)) = some code := hcode
  rw [hcode', Option.map_some, Option.some_inj] at hlength
  rw [hlength]
  refine ⟨by decide, by decide, by decide, by decide, fun _ => ?_⟩
  have harenas :
      (GenerateTrampolineBuffer 4096 ⟨true, [], true, [], true, 0x50000000⟩ 0x40000000 0x40001000
        (.start fun _ => 0)).arenas = [] := rfl
  rw [harenas]
  simp [Apart, stop, ALIGN_CEIL]

/-- In any state that a run leads to, the function of each entry leads to its replacement, and its
relocated code runs the instructions that the function began with. -/
theorem hooked_functions_lead {mem : Memory} (hpage : 0 < page) (hfour : page % 4 = 0)
    (hprogram : ∀ s ∈ program, 0 < s.size) (hadmitted : RunAdmitted page program (.start mem) ops)
    (hrun : (World.start mem).run page ops = some w) {e : InterceptEntry}
    (he : e ∈ w.entries) {σ : Type}
    (others : ℕ → Core σ → Core σ × Flow) (c : Core σ) (hc : c.mem = w.mem) :
    (∃ value, Reaches others (e.patched_addr, c) (withTmp value (e.replace_func, c))) ∧
    ∃ n code, e.origin_insns = read mem e.patched_addr (4 * n) ∧
      GenRelocateCodeAndBranch e.patched_addr (wordsAt mem e.patched_addr n) = some code ∧
      ((∀ inst ∈ wordsAt mem e.patched_addr n, relocatable (decode inst) = true) →
        TmpUnread others (wordsAt mem e.patched_addr n) →
          Keeps others e.relocated_addr (4 * code.length) →
        ∃ value, Reaches others (e.relocated_addr, c) (withTmp value (runStraight others
          (relocatedAddress e.patched_addr e.relocated_addr (wordsAt mem e.patched_addr n))
            e.patched_addr
          (wordsAt mem e.patched_addr n) c))) := by
  obtain ⟨blocks, hconsistent⟩ :=
    (Consistent.start mem program).run hpage hfour hprogram hadmitted hrun
  obtain ⟨words, code, hinstalled⟩ := hconsistent.installed e he
  obtain ⟨hsrc, hdst⟩ := hinstalled.bounded
  have htrampoline := hinstalled.trampoline
  have hwritten := hinstalled.written
  have hrelocated := hinstalled.relocated
  rw [← hc] at htrampoline hwritten hrelocated
  refine ⟨htrampoline.reaches hsrc hdst hinstalled.aligned.1 hinstalled.aligned.2 hwritten,
    words.length, code,
    hinstalled.saved, hinstalled.generated, fun hrelocatable hunread hkeeps => ?_⟩
  have hlength := hinstalled.length_le
  have hcount : (wordsAt mem e.patched_addr words.length).length = words.length := by simp [wordsAt]
  have hfits := hconsistent.sound.block_fits hinstalled.block
  have hrelocation : Relocation others e.patched_addr e.relocated_addr
      (wordsAt mem e.patched_addr words.length) code :=
    ⟨wordsAt_lt, hrelocatable, by omega, hinstalled.generated, hfits, hkeeps⟩
  have hpc : e.patched_addr = e.patched_addr + 4 * ([] : List ℕ).length := rfl
  have hreach := hrelocation.reaches_rest (List.nil_append _).symm hpc hunread hrelocated
  rwa [relocatedAddress_self] at hreach

/-- One hook leads to its replacement. -/
theorem hooked_functions_lead_once : ∃ (w : World) (e : InterceptEntry) (c : Core Unit) (value : ℕ),
    (World.start fun _ => 0).run 4096
      [.hook ⟨true, [], true, [], true, 0x50000000⟩ 0x40000000 0x40001000] = some w ∧
      e ∈ w.entries ∧ Reaches (fun _ c => (c, .next)) (e.patched_addr, c)
        (withTmp value (e.replace_func, c)) := by
  have hrun : ((World.start fun _ => 0).run 4096
      [.hook ⟨true, [], true, [], true, 0x50000000⟩ 0x40000000 0x40001000]).map
        (fun w => w.entries.length) = some 1 := by
    decide +kernel
  obtain ⟨w, hw, hlength⟩ := Option.map_eq_some_iff.mp hrun
  obtain ⟨e, he⟩ := List.length_eq_one_iff.mp hlength
  have hmem : e ∈ w.entries := by simp [he]
  obtain ⟨⟨value, hreach⟩, -⟩ :=
    hooked_functions_lead (by decide) (by decide) (by decide) start_hook_admitted hw hmem
    (fun _ c => (c, .next)) (⟨fun _ => 0, 0, fun _ => 0, ⟨false, false, false, false⟩, w.mem, ()⟩ :
      Core Unit) rfl
  exact ⟨w, e, _, value, hw, hmem, hreach⟩

/-- In any state that a run leads to, code of the program that is not written over for an entry is
as in the beginning; so is all of it when there is no entry. -/
theorem program_restored {mem : Memory} (hpage : 0 < page) (hfour : page % 4 = 0)
    (hprogram : ∀ s ∈ program, 0 < s.size) (hadmitted : RunAdmitted page program (.start mem) ops)
    (hrun : (World.start mem).run page ops = some w) {t : Span} (ht : t ∈ program) {a : ℕ}
    (ha : t.Has a)
    (hnone : ∀ e ∈ w.entries, ¬ e.patched.Has a) : w.mem a = mem a := by
  obtain ⟨blocks, hconsistent⟩ :=
    (Consistent.start mem program).run hpage hfour hprogram hadmitted hrun
  exact hconsistent.pristine t ht a ha hnone

/-- A hook that is removed leaves the program as it was. -/
theorem program_restored_removed : ∃ w : World, (World.start fun _ => 0).run 4096
    [.hook ⟨true, [], true, [], true, 0x50000000⟩ 0x40000000 0x40001000, .destroy 0x40000000] =
      some w ∧
      w.mem 0x40000000 = 0 := by
  have hrun : ((World.start fun _ => 0).run 4096
      [.hook ⟨true, [], true, [], true, 0x50000000⟩ 0x40000000 0x40001000, .destroy 0x40000000]).map
        (fun w => w.entries.length) = some 0 := by
    decide +kernel
  have hadmitted : RunAdmitted 4096 [⟨0x40000000, 64⟩] (.start fun _ => 0)
      [.hook ⟨true, [], true, [], true, 0x50000000⟩ 0x40000000 0x40001000, .destroy 0x40000000] :=
    ⟨start_hook_admitted.1, by split <;> trivial⟩
  obtain ⟨w, hw, hlength⟩ := Option.map_eq_some_iff.mp hrun
  have hnone : w.entries = [] := List.eq_nil_of_length_eq_zero hlength
  exact ⟨w, hw, program_restored (by decide) (by decide) (by decide) hadmitted hw List.mem_cons_self
    ⟨by decide, by decide⟩
    (by simp [hnone])⟩

end Run

end XposedJniTrace.Dobby
