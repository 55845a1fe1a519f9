import Mathlib.Data.List.Basic

/-!
# Model of `HookUtils`

The operations of `hook/HookUtils.cpp` on addresses, over the state that they share: the list
of hooked addresses, the patches that the backends have in place, the cells that the original
entries are written to, and the near-branch mode. Whether a backend succeeds is an input of each
call. Dobby fails on an address in its own table; `SandHook::Inline::InlineHookImpl` looks at no
table; `DobbyDestroy` puts back the bytes that Dobby found, which undoes what was patched over
them as well. The lookups by symbol name in front of `Hooker` and the log texts are left out.
-/

namespace XposedJniTrace.HookUtils

/-- Addresses of functions; null is 0. -/
abbrev Addr := ℕ

/-- Cells that a caller passes for the original entry. -/
abbrev Cell := ℕ

/-- A callable entry that a backend made: where it is, and the function whose original it runs. -/
structure Entry where
  original : Addr
  location : ℕ
  deriving DecidableEq

/-- What was put over a prologue, and by which backend. -/
inductive Kind where
  | dobbyHook (newrep : Addr)
  | dobbyInstrument
  | inlineHook (newrep : Addr)
  deriving DecidableEq

/-- Dobby keeps the patch in its table. -/
def Kind.inTable : Kind → Bool
  | dobbyHook _ => true
  | dobbyInstrument => true
  | inlineHook _ => false

/-- The replacement that a call runs; a pre-handler leaves the call where it was going. -/
def Kind.newrep : Kind → Option Addr
  | dobbyHook r => some r
  | dobbyInstrument => none
  | inlineHook r => some r

/-- A patch that is in place. -/
structure Patch where
  addr : Addr
  kind : Kind
  deriving DecidableEq

/-- What hooking leaves behind. -/
structure World where
  /-- The addresses hooked so far; null until the first hook. -/
  hookedList : Option (List Addr)
  /-- The patches in place, the newest first. -/
  patches : List Patch
  cells : Cell → Option Entry
  nearBranch : Bool

namespace World

/-- The list of hooked addresses, empty before the first hook. -/
def hooked (w : World) : List Addr := w.hookedList.getD []

/-- The addresses that carry a patch of some kinds. -/
def patchedBy (kinds : Kind → Bool) (w : World) : List Addr :=
  (w.patches.filter fun p => kinds p.kind).map Patch.addr

/-- The addresses in Dobby's table. -/
def table (w : World) : List Addr := w.patchedBy Kind.inTable

/-- What a call of an address runs in its place, by the newest patch that replaces it. -/
def redirect (w : World) (a : Addr) : Option Addr :=
  w.patches.findSome? fun p => if p.addr = a then p.kind.newrep else none

/-- `if (hookedList == nullptr) hookedList = new list<void *>()`. -/
def allocate (w : World) : World := { w with hookedList := some w.hooked }

/-- The macro `PUT_PTR`. -/
def putPtr (w : World) (a : Addr) : World :=
  { w with hookedList := w.hookedList.map (· ++ [a]) }

/-- A backend succeeds: the patch is in place and the cell holds an entry to the original. -/
def install (w : World) (kind : Kind) (a : Addr) (org : Cell) (location : ℕ) : World :=
  { w with
    patches := ⟨a, kind⟩ :: w.patches
    cells := fun c => if c = org then some ⟨a, location⟩ else w.cells c }

end World

/-- `DobbyHook`: where the original entry is put when it succeeds. -/
def DobbyHook (outcome : Option ℕ) (address newrep : Addr) (org : Cell) (w : World) :
    Bool × World :=
  if address ∈ w.table then (false, w)
  else
    match outcome with
    | none => (false, w)
    | some location => (true, w.install (.dobbyHook newrep) address org location)

/-- `SandHook::Inline::InlineHookImpl`. -/
def InlineHookImpl (outcome : Option ℕ) (origin replace : Addr) (backup : Cell) (w : World) :
    Bool × World :=
  match outcome with
  | none => (false, w)
  | some location => (true, w.install (.inlineHook replace) origin backup location)

/-- `DobbyInstrument`. -/
def DobbyInstrument (outcome : Bool) (address : Addr) (w : World) : Bool × World :=
  if address ∈ w.table then (false, w)
  else if outcome then (true, { w with patches := ⟨address, .dobbyInstrument⟩ :: w.patches })
  else (false, w)

/-- The patches after Dobby's bytes of an address are back: Dobby's own patch is gone, with those
that were put over it. -/
def restore (address : Addr) : List Patch → List Patch
  | [] => []
  | p :: older =>
    if p.addr = address then
      if p.kind.inTable then older else restore address older
    else p :: restore address older

/-- `DobbyDestroy`. -/
def DobbyDestroy (address : Addr) (w : World) : Bool × World :=
  if address ∈ w.table then (true, { w with patches := restore address w.patches })
  else (false, w)

/-- The outcomes of the three backend calls of `Hooker`. -/
structure Outcomes where
  dobby : Option ℕ
  inlineHook : Option ℕ
  nearBranch : Option ℕ
  deriving DecidableEq

/-- `unHook` of a symbol. -/
def unHook (sym : Addr) (w : World) : Bool × World :=
  let (ret, w) := DobbyDestroy sym w
  (ret, { w with hookedList := w.hookedList.map (·.filter (· ≠ sym)) })

/-- `HookerForSign`, with what `InlineHookImpl` gives. -/
def HookerForSign (outcome : Option ℕ) (dysym newrep : Addr) (org : Cell) (w : World) :
    Bool × World :=
  if dysym = 0 then (false, w)
  else
    let w := w.allocate
    if dysym ∈ w.hooked then (true, w)
    else InlineHookImpl outcome dysym newrep org w

/-- `Hooker`, with what the hooks on its way give. -/
def Hooker (outcomes : Outcomes) (dysym newrep : Addr) (org : Cell) (w : World) : Bool × World :=
  if dysym = 0 then (false, w)
  else
    let w := w.allocate
    -- an address in the list counts as hooked, whatever its replacement
    if dysym ∈ w.hooked then (true, w)
    else
      match DobbyHook outcomes.dobby dysym newrep org w with
      | (true, w) => (true, w.putPtr dysym)
      | (false, w) =>
        match InlineHookImpl outcomes.inlineHook dysym newrep org w with
        | (true, w) => (true, w.putPtr dysym)
        | (false, w) =>
          match DobbyHook outcomes.nearBranch dysym newrep org { w with nearBranch := true } with
          | (true, w) => (true, { w with nearBranch := false }.putPtr dysym)
          | (false, w) => (false, { w with nearBranch := false })

/-- `addTrampoline` of a symbol. -/
def addTrampoline (outcome : Bool) (dysym : Addr) (w : World) : Bool × World :=
  DobbyInstrument outcome dysym w

/-- A call of one of the operations, with the outcomes of its backends. -/
inductive Op where
  | hooker (outcomes : Outcomes) (dysym newrep : Addr) (org : Cell)
  | hookerForSign (outcome : Option ℕ) (dysym newrep : Addr) (org : Cell)
  | addTrampoline (outcome : Bool) (dysym : Addr)
  | unHook (sym : Addr)
  deriving DecidableEq

/-- What a call answers, and the state behind it. -/
def Op.call : Op → World → Bool × World
  | hooker outcomes dysym newrep org => Hooker outcomes dysym newrep org
  | hookerForSign outcome dysym newrep org => HookerForSign outcome dysym newrep org
  | addTrampoline outcome dysym => HookUtils.addTrampoline outcome dysym
  | unHook sym => HookUtils.unHook sym

/-- The state behind a sequence of calls. -/
def run (ops : List Op) (w : World) : World :=
  ops.foldl (fun w op => (op.call w).2) w

/-- The state of a process that has hooked nothing. -/
def initial (cells : Cell → Option Entry) : World := ⟨none, [], cells, false⟩

end XposedJniTrace.HookUtils
