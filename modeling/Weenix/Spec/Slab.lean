import Weenix.Lib.Memory
import Weenix.Spec.Page

/-! The slab allocator of `kernel/mm/slab.c`, over byte memory. Slabs, allocators and
buffer controls are the records the code lays out in memory, reached through the pointers
it stores there; red zones and the free check are compiled in, as they are in the kernel.
The page allocator answers each `page_alloc_n` from outside. -/

namespace Weenix.Slab

open Memory Page

/-! ### Records

`struct slab` has 16 bytes, `struct slab_allocator` 24 and `struct slab_bufctl` 8. The
first word of a buffer control is the union of `sb_next` and `sb_slab`. -/

def slabSizeof : ℕ := 16
def slabAllocatorSizeof : ℕ := 24
def slabBufctlSizeof : ℕ := 8

@[simp] def sNext (slab : ℕ) : ℕ := slab
@[simp] def sInuse (slab : ℕ) : ℕ := slab + 4
@[simp] def sFree (slab : ℕ) : ℕ := slab + 8
@[simp] def sAddr (slab : ℕ) : ℕ := slab + 12

@[simp] def saNext (a : ℕ) : ℕ := a
@[simp] def saName (a : ℕ) : ℕ := a + 4
@[simp] def saObjsize (a : ℕ) : ℕ := a + 8
@[simp] def saSlabs (a : ℕ) : ℕ := a + 12
@[simp] def saOrder (a : ℕ) : ℕ := a + 16
@[simp] def saSlabNobjs (a : ℕ) : ℕ := a + 20

@[simp] def sbFree (bufctl : ℕ) : ℕ := bufctl + 4

def SLAB_REDZONE : ℕ := 0xdeadbeef
def redzoneSizeof : ℕ := 4

inductive Fault where
  | redzone
  | invalidFree
  | minorder
  | notHeld
  | diverges
deriving DecidableEq, Repr

/-- `pages` holds the blocks, with their page counts, that `page_alloc_n` has handed to
the slab allocator and that have not been given back. -/
structure State where
  mem : Mem
  slabAllocators : ℕ
  pages : List (ℕ × ℕ)

def objBufctl (m : Mem) (a obj : ℕ) : ℕ := obj + read32 m (saObjsize a)

def nextObj (m : Mem) (a obj : ℕ) : ℕ := obj + read32 m (saObjsize a) + slabBufctlSizeof

def rearRz (m : Mem) (a obj : ℕ) : ℕ := obj + read32 m (saObjsize a) - redzoneSizeof

def verifyRedzones (m : Mem) (a obj : ℕ) : Except Fault Unit :=
  if read32 m obj = SLAB_REDZONE ∧ read32 m (rearRz m a obj) = SLAB_REDZONE then .ok ()
  else .error .redzone

/-! ### The size of a slab -/

def SLAB_MAX_ORDER : ℕ := 5

def slabSize (objsize nobjs : ℕ) : ℕ :=
  word (nobjs * word (objsize + slabBufctlSizeof) + slabSizeof)

def slabNobjs (objsize order : ℕ) : ℤ :=
  toInt (wordSub (PAGE_SIZE <<< order) slabSizeof / word (objsize + slabBufctlSizeof))

def slabWaste (objsize order : ℕ) : ℤ :=
  toInt (wordSub (PAGE_SIZE <<< order) (slabSize objsize (slabNobjs objsize order % 2 ^ 32).toNat))

/-- One iteration of the search for less waste; the pair is `best_order`, `best_waste`. -/
def betterOrder (objsize : ℕ) (best : ℕ × ℤ) (order : ℕ) : ℕ × ℤ :=
  if slabWaste objsize order < best.2 then (order, slabWaste objsize order) else best

/-- `_calc_slab_size`: the order and the number of objects of a slab. -/
def calcSlabSize (objsize : ℕ) : Except Fault (ℕ × ℤ) :=
  match (List.range PAGE_NSIZES).find? fun order =>
      toInt (slabSize objsize 1) ≤ toInt (PAGE_SIZE <<< order) with
  | none => .error .minorder
  | some minorder =>
    let best := (List.range' (minorder + 1) (SLAB_MAX_ORDER - (minorder + 1))).foldl
      (betterOrder objsize) (minorder, slabWaste objsize minorder)
    .ok (best.1, slabNobjs objsize best.1)

/-- `_allocator_init` -/
def allocatorInit (s : State) (a name size : ℕ) : Except Fault State := do
  let size := word (size + 2 * redzoneSizeof)
  let m := write32 s.mem (saName a) name
  let m := write32 m (saObjsize a) size
  let m := write32 m (saSlabs a) 0
  let (order, nobjs) ← calcSlabSize size
  let m := write32 m (saOrder a) order
  let m := write32 m (saSlabNobjs a) (nobjs % 2 ^ 32).toNat
  let m := write32 m (saNext a) s.slabAllocators
  return { s with mem := m, slabAllocators := a }

/-! ### Giving slabs back -/

/-- `page_free_n`. What the block holds afterwards is up to the page allocator. -/
def pageFreeN (s : State) (junk : Mem) (addr npages : ℕ) : Except Fault State :=
  if (addr, npages) ∈ s.pages then
    .ok { s with mem := fill s.mem junk addr (npages * PAGE_SIZE), pages := s.pages.erase (addr, npages) }
  else .error .notHeld

/-- The inner loop of `slab_allocators_reclaim`, with `prev` the address of the pointer
to `slab`. The result says whether the target has been met. The first argument bounds
the iterations. -/
def reclaimSlabs (junk : Mem) (target : ℤ) (a : ℕ) :
    ℕ → ℕ → ℕ → ℕ → State → Except Fault (Bool × ℕ × State)
  | 0, _, _, _, _ => .error .diverges
  | fuel + 1, prev, slab, freed, s =>
    if slab = 0 then .ok (false, freed, s)
    else do
      let next := read32 s.mem (sNext slab)
      if read32 s.mem (sInuse slab) = 0 then
        let m := write32 s.mem prev next
        let npages := 1 <<< read32 m (saOrder a)
        let s ← pageFreeN { s with mem := m } junk (read32 m (sAddr slab)) npages
        if 0 < target ∧ target ≤ (freed + npages : ℕ) then return (true, freed + npages, s)
        else reclaimSlabs junk target a fuel prev next (freed + npages) s
      else if 0 < target ∧ target ≤ freed then return (true, freed, s)
      else reclaimSlabs junk target a fuel (sNext slab) next freed s

/-- The outer loop, over the allocators. -/
def reclaimAllocators (junk : Mem) (target : ℤ) :
    ℕ → ℕ → ℕ → State → Except Fault (ℕ × State)
  | 0, _, _, _ => .error .diverges
  | fuel + 1, a, freed, s =>
    if a = 0 then .ok (freed, s)
    else do
      let (met, freed, s) ← reclaimSlabs junk target a (s.pages.length + 1) (saSlabs a)
        (read32 s.mem (saSlabs a)) freed s
      if met then return (freed, s)
      else reclaimAllocators junk target fuel (read32 s.mem (saNext a)) freed s

/-- `slab_allocators_reclaim`; `n` bounds the number of allocators. -/
def slabAllocatorsReclaim (n : ℕ) (junk : Mem) (target : ℤ) (s : State) :
    Except Fault (ℕ × State) :=
  reclaimAllocators junk target (n + 1) s.slabAllocators 0 s

/-- `page_alloc_n`. The answer is the address of the block, or none when memory has run
out; then the slabs without a live object have been given back. -/
def pageAllocN (n : ℕ) (s : State) (page : Option ℕ) (junk : Mem) (npages : ℕ) :
    Except Fault (ℕ × State) :=
  match page with
  | some addr => .ok (addr, { s with mem := fill s.mem junk addr (npages * PAGE_SIZE)
                                     pages := (addr, npages) :: s.pages })
  | none => do
    let (_, s) ← slabAllocatorsReclaim n junk 0 s
    return (0, s)

/-! ### Objects -/

/-- The loop that links all objects but the last to their successors. -/
def linkObjs (a : ℕ) : ℕ → Mem → ℕ → Mem × ℕ
  | 0, m, obj => (m, obj)
  | n + 1, m, obj =>
    let m := write8 m (sbFree (objBufctl m a obj)) 1
    let next := nextObj m a obj
    linkObjs a n (write32 m (objBufctl m a obj) next) next

/-- The loop that writes the red zones. -/
def setRedzones (a : ℕ) : ℕ → Mem → ℕ → Mem
  | 0, m, _ => m
  | n + 1, m, obj =>
    let m := write32 m obj SLAB_REDZONE
    let m := write32 m (rearRz m a obj) SLAB_REDZONE
    setRedzones a n m (nextObj m a obj)

/-- What `_slab_allocator_grow` does to a block it has been given. -/
def layOut (a : ℕ) (m : Mem) (addr : ℕ) : Mem :=
  let nobjs := toInt (read32 m (saSlabNobjs a))
  let linked := linkObjs a (nobjs - 1).toNat m addr
  let obj := linked.2
  let m := write8 linked.1 (sbFree (objBufctl linked.1 a obj)) 1
  let m := write32 m (objBufctl m a obj) 0
  let slab := nextObj m a obj
  let m := write32 m (sFree slab) addr
  let m := write32 m (sAddr slab) addr
  let m := write32 m (sInuse slab) 0
  let m := setRedzones a nobjs.toNat m addr
  let m := write32 m (sNext slab) (read32 m (saSlabs a))
  write32 m (saSlabs a) slab

/-- `_slab_allocator_grow` -/
def slabAllocatorGrow (n : ℕ) (s : State) (a : ℕ) (page : Option ℕ) (junk : Mem) :
    Except Fault (Bool × State) := do
  let (addr, s) ← pageAllocN n s page junk (1 <<< read32 s.mem (saOrder a))
  if addr = 0 then return (false, s)
  else return (true, { s with mem := layOut a s.mem addr })

/-- The `while` loop of `slab_obj_alloc`: the first slab that is not full, or null. -/
def findSlab (m : Mem) (a : ℕ) : ℕ → ℕ → Except Fault ℕ
  | 0, _ => .error .diverges
  | fuel + 1, slab =>
    if slab ≠ 0 ∧ read32 m (sInuse slab) = read32 m (saSlabNobjs a) then
      findSlab m a fuel (read32 m (sNext slab))
    else .ok slab

/-- The rest of `slab_obj_alloc`, once a slab with a free object has been found. -/
def takeObj (s : State) (a slab : ℕ) : Except Fault (ℕ × State) := do
  let obj := read32 s.mem (sFree slab)
  let m := write32 s.mem (sFree slab) (read32 s.mem (objBufctl s.mem a obj))
  let m := write32 m (objBufctl m a obj) slab
  let m := write8 m (sbFree (objBufctl m a obj)) 0
  let m := write32 m (sInuse slab) (word (read32 m (sInuse slab) + 1))
  verifyRedzones m a obj
  return (obj + redzoneSizeof, { s with mem := m })

/-- The `for` loop of `slab_obj_alloc`; the first argument bounds the iterations. -/
def allocLoop (n a : ℕ) (page : Option ℕ) (junk : Mem) : ℕ → State → Except Fault (ℕ × State)
  | 0, _ => .error .diverges
  | fuel + 1, s => do
    let slab ← findSlab s.mem a (s.pages.length + 1) (read32 s.mem (saSlabs a))
    if slab ≠ 0 ∧ toInt (read32 s.mem (sInuse slab)) < toInt (read32 s.mem (saSlabNobjs a)) then
      takeObj s a slab
    else
      let (grown, s) ← slabAllocatorGrow n s a page junk
      if grown then allocLoop n a page junk fuel s else return (0, s)

/-- `slab_obj_alloc`. A slab that has just been made has a free object, so the loop runs at
most twice and asks for pages at most once. -/
def slabObjAlloc (n : ℕ) (s : State) (a : ℕ) (page : Option ℕ) (junk : Mem) :
    Except Fault (ℕ × State) :=
  allocLoop n a page junk 2 s

def slabObjFree (s : State) (a obj : ℕ) : Except Fault State := do
  let obj := obj - redzoneSizeof
  verifyRedzones s.mem a obj
  if s.mem (sbFree (objBufctl s.mem a obj)) ≠ 0 then .error .invalidFree
  else
    let m := write8 s.mem (sbFree (objBufctl s.mem a obj)) 1
    let slab := read32 m (objBufctl m a obj)
    let m := write32 m (objBufctl m a obj) (read32 m (sFree slab))
    let m := write32 m (sFree slab) obj
    let m := write32 m (sInuse slab) (wordSub (read32 m (sInuse slab)) 1)
    return { s with mem := m }

/-- `slab_allocator_create`, with `saa` the address of `slab_allocator_allocator`. -/
def slabAllocatorCreate (n saa : ℕ) (s : State) (name size : ℕ) (page : Option ℕ) (junk : Mem) :
    Except Fault (ℕ × State) := do
  let (a, s) ← slabObjAlloc n s saa page junk
  if a = 0 then return (0, s)
  else
    let s ← allocatorInit s a name size
    return (a, s)

/-! ### Runs -/

/-- Calls of the rest of the kernel, each with the answer of the page allocator and what
the pages it handles hold afterwards, and stores to memory between the calls. -/
inductive Op where
  | create (name size : ℕ) (page : Option ℕ) (junk : Mem)
  | alloc (a : ℕ) (page : Option ℕ) (junk : Mem)
  | free (a obj : ℕ)
  | reclaim (target : ℤ) (junk : Mem)
  | store (mem : Mem)

/-- The allocator together with what has been handed out: the allocators created, with
their object sizes, and the live objects, with the allocator they came from. -/
structure Sys where
  st : State
  allocs : List (ℕ × ℕ)
  live : List (ℕ × ℕ)

def Sys.handOut (s : Sys) (a obj : ℕ) (st : State) : Sys :=
  if obj = 0 then { s with st := st } else { s with st := st, live := (a, obj) :: s.live }

def step (saa : ℕ) (s : Sys) : Op → Except Fault Sys
  | .create name size page junk => do
    let (a, st) ← slabAllocatorCreate (s.allocs.length + 1) saa s.st name size page junk
    if a = 0 then return { s with st := st }
    else return { (s.handOut saa a st) with allocs := (a, size) :: s.allocs }
  | .alloc a page junk => do
    let (obj, st) ← slabObjAlloc (s.allocs.length + 1) s.st a page junk
    return s.handOut a obj st
  | .free a obj => do
    let st ← slabObjFree s.st a obj
    return { s with st := st, live := s.live.erase (a, obj) }
  | .reclaim target junk => do
    let (_, st) ← slabAllocatorsReclaim (s.allocs.length + 1) junk target s.st
    return { s with st := st }
  | .store mem => return { s with st := { s.st with mem := mem } }

/-- `slab_init` up to its first allocator, in memory with any contents. -/
def boot (saa : ℕ) (mem : Mem) (name : ℕ) : Except Fault Sys := do
  let st ← allocatorInit ⟨mem, 0, []⟩ saa name slabAllocatorSizeof
  return ⟨st, [], []⟩

end Weenix.Slab
