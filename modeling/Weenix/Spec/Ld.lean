import Mathlib.Tactic

/-! The run-time linker `ld-weenix`: how `_ldstart` loads an executable and the libraries it
depends on. `ldalloc.c`, `ldnames.c`, and `_ldlinkobj`, `_ldloadobj` and `_ldstart` of
`ldstart.c`. -/

namespace Weenix.Ld

/-- The tags of the dynamic section that the loading of libraries depends on. -/
inductive DTag where
  | null
  | needed
  | rpath
  | other
  deriving DecidableEq

structure Dyn where
  dTag : DTag
  dVal : ℕ
  deriving DecidableEq

/-- An executable or a shared object: its dynamic section and the strings of its string table,
by offset. -/
structure Object where
  dyn : List Dyn
  dynstr : ℕ → String

/-- The fields of `module_t` that make the chain. Pointers are addresses, null is `none`. -/
structure Module where
  name : Option String
  runpath : Option String
  next : Option ℕ
  first : ℕ
  deriving DecidableEq

/-- The ways out other than a return: the two calls of `exit`, a null pointer, and more rounds
of the loop than were allowed for. -/
inductive Panic where
  | alloc (size : ℕ)
  | cantfind (name : String)
  | null
  | endless
  deriving DecidableEq

/-- The static variables of `ldalloc.c`, `ldnames.c` and `ldstart.c`, and the modules. -/
structure State where
  start : ℕ
  amount : ℕ
  pos : ℕ
  names : List String
  mods : ℕ → Module
  ldfirst : ℕ
  /-- the module whose field `next` is the one `_ldlast` points to -/
  ldlast : ℕ

def sizeofModule : ℕ := 60

def sizeofModent : ℕ := 8

def State.setMod (s : State) (m : ℕ) (f : Module → Module) : State :=
  { s with mods := Function.update s.mods m (f (s.mods m)) }

/-- `_ldainit`, with the address that `mmap` returns. -/
def ldainit (start pagesize pages : ℕ) : State where
  start := start
  amount := pagesize * pages
  pos := 0
  names := []
  mods := fun _ => ⟨none, none, none, 0⟩
  ldfirst := 0
  ldlast := 0

/-- `_ldalloc` -/
def ldalloc (s : State) (size : ℕ) : Except Panic (ℕ × State) :=
  let size := if size % 4 ≠ 0 then size - size % 4 + 4 else size
  if s.amount < s.pos + size then .error (.alloc size)
  else .ok (s.start + s.pos, { s with pos := s.pos + size })

/-- `_ldaddname` -/
def ldaddname (s : State) (name : String) : Except Panic State := do
  let (_, s) ← ldalloc s sizeofModent
  return { s with names := name :: s.names }

/-- `_ldchkname` -/
def ldchkname (s : State) (name : String) : Bool := s.names.any fun n => n = name

/-- The variable `d_rpath` behind the first loop of `_ldlinkobj`. -/
def dRpath : ℕ → List Dyn → ℕ
  | r, [] => r
  | r, d :: l => match d.dTag with
    | .null => r
    | .rpath => dRpath d.dVal l
    | _ => dRpath r l

/-- The second loop of `_ldlinkobj`; `curmod` is the module whose `next` is set. -/
def linkNeeded (o : Object) : List Dyn → ℕ → State → Except Panic (ℕ × State)
  | [], curmod, s => .ok (curmod, s)
  | d :: l, curmod, s =>
    match d.dTag with
    | .null => .ok (curmod, s)
    | .needed =>
      let name := o.dynstr d.dVal
      -- `break`: the entries behind this one are not looked at
      if ldchkname s name then .ok (curmod, s)
      else do
        let s ← ldaddname s name
        let (m, s) ← ldalloc s sizeofModule
        let s := s.setMod curmod fun k => { k with next := some m }
        let s := s.setMod m fun k => { k with name := some name }
        let s ← ldaddname s name
        let rpath := dRpath 0 o.dyn
        let s := s.setMod m fun k => { k with
          runpath := if rpath ≠ 0 then some (o.dynstr rpath) else none
          next := none
          first := s.ldfirst }
        linkNeeded o l m s
    | _ => linkNeeded o l curmod s

/-- `_ldlinkobj`, with null for the executable. -/
def ldlinkobj (info : Option ℕ) (o : Object) (s : State) : Except Panic (ℕ × State) := do
  let (info, curmod, s) ← match info with
    | none => do
      let (m, s) ← ldalloc s sizeofModule
      pure (m, m, { s.setMod m fun _ => ⟨none, none, none, m⟩ with ldfirst := m })
    | some m => pure (m, s.ldlast, s)
  let (curmod, s) ← linkNeeded o o.dyn curmod s
  return (info, { s with ldlast := curmod })

section
-- what `_ldtryopen` finds along the library path, the run path of the module and the default
-- path, and is then mapped
variable (opens : String → Option String → Option Object)

/-- `_ldloadobj` -/
def ldloadobj (m : ℕ) (s : State) : Except Panic State :=
  match (s.mods m).name with
  | none => .error .null
  | some name =>
    match opens name (s.mods m).runpath with
    | none => .error (.cantfind name)
    | some o => do
      let (_, s) ← ldlinkobj (some m) o s
      return s

/-- The loop of `_ldstart` over the chain. -/
def loadLoop : ℕ → Option ℕ → State → Except Panic State
  | _, none, s => .ok s
  | 0, some _, _ => .error .endless
  | n + 1, some m, s => do
    let s ← ldloadobj opens m s
    loadLoop n (s.mods m).next s

/-- `_ldstart` up to the end of its loading loop. -/
def ldstart (start pagesize : ℕ) (exe : Object) (fuel : ℕ) : Except Panic State := do
  let (_, s) ← ldlinkobj none exe (ldainit start pagesize 1)
  loadLoop opens fuel (s.mods s.ldfirst).next s

end

end Weenix.Ld
