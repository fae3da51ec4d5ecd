import Mathlib.Tactic

/-! The page allocator of `kernel/mm/page.c`: page groups with their free lists and
buddy bit maps, and the split and join loops over them. Addresses are 32-bit words
written as naturals; what the code computes modulo `2 ^ 32` is reduced here too. -/

namespace Weenix.Page

open Function

def PAGE_SHIFT : ℕ := 12
def PAGE_SIZE : ℕ := 2 ^ PAGE_SHIFT
def PAGE_NSIZES : ℕ := 8

/-- `sizeof(struct pagegroup)`: eight list heads, eight map pointers, the two
addresses and the link. -/
def pagegroupSize : ℕ := 112

def word (n : ℕ) : ℕ := n % 2 ^ 32
def wordSub (a b : ℕ) : ℕ := (a + (2 ^ 32 - b % 2 ^ 32)) % 2 ^ 32

def pageAlignDown (x : ℕ) : ℕ := x / PAGE_SIZE * PAGE_SIZE

/-- Ways in which the kernel stops inside the allocator. `unlinked` is a
`list_remove` of a node that is on no list, so that the pointers it follows are
whatever the page happens to hold. -/
inductive Fault where
  | kassert
  | pairBit
  | unlinked
  | panic
deriving DecidableEq, Repr

/-- `mem` holds the bits of the memory the maps lie in, by absolute bit address: bit
`i` of a map that starts at byte `a` is bit `8 * a + i`, whichever word it is reached
through. The free lists hold the addresses of their nodes, head first. -/
structure Pagegroup where
  freelist : ℕ → List ℕ
  map : ℕ → ℕ
  baseaddr : ℕ
  endaddr : ℕ
  mem : ℕ → Bool

structure State where
  groups : List Pagegroup
  freecount : ℕ

namespace Pagegroup

def setFree (g : Pagegroup) (order : ℕ) (l : List ℕ) : Pagegroup :=
  { g with freelist := update g.freelist order l }

/-- `list_insert_head(&group->pg_freelist[order], ..)` -/
def insertHead (g : Pagegroup) (order addr : ℕ) : Pagegroup :=
  g.setFree order (addr :: g.freelist order)

/-- `list_remove`: the node leaves whichever free list it is linked on. -/
def listRemove (g : Pagegroup) (addr : ℕ) : Except Fault Pagegroup :=
  if ∃ k < PAGE_NSIZES, addr ∈ g.freelist k then
    .ok { g with freelist := fun k => (g.freelist k).erase addr }
  else .error .unlinked

def bitCheck (g : Pagegroup) (order index : ℕ) : Bool := g.mem (8 * g.map order + index)

def bitFlip (g : Pagegroup) (order index : ℕ) : Pagegroup :=
  let bit := 8 * g.map order + index
  { g with mem := update g.mem bit (!g.mem bit) }

end Pagegroup

/-! ### Creating a group -/

/-- Bytes reserved for the map of one order. -/
def mapBytes (npages order : ℕ) : ℕ :=
  word (wordSub (npages >>> order) 1 / 8 * 8 + 8) >>> 3

/-- Reserves and clears the map of one order, below what is already reserved. -/
def reserveMap (npages : ℕ) (acc : (ℕ → Bool) × (ℕ → ℕ) × ℕ) (order : ℕ) :
    (ℕ → Bool) × (ℕ → ℕ) × ℕ :=
  let count := mapBytes npages order
  let stop := wordSub acc.2.2 count
  (fun b => if 8 * stop ≤ b ∧ b < 8 * (stop + count) then false else acc.1 b,
   update acc.2.1 order stop, stop)

/-- Puts the block of one order that does not fit the largest order on its list. -/
def carve (npages : ℕ) (acc : (ℕ → List ℕ) × ℕ) (order : ℕ) : (ℕ → List ℕ) × ℕ :=
  if npages.testBit order then
    let stop := wordSub acc.2 ((1 <<< order) <<< PAGE_SHIFT)
    (update acc.1 order [stop], stop)
  else (update acc.1 order [], acc.2)

/-- The loop that puts the remaining pages on the list of the largest order; the
first argument bounds the iterations. -/
def fillLargest (stop : ℕ) : ℕ → ℕ → List ℕ → List ℕ
  | 0, _, l => l
  | fuel + 1, current, l =>
      if current < stop then
        fillLargest stop fuel (word (current + ((1 <<< (PAGE_NSIZES - 1)) <<< PAGE_SHIFT)))
          (current :: l)
      else l

def reserveMaps (mem : ℕ → Bool) (npages stop : ℕ) : (ℕ → Bool) × (ℕ → ℕ) × ℕ :=
  (List.range' 1 (PAGE_NSIZES - 1)).foldl (reserveMap npages)
    (mem, fun _ => 0, wordSub stop pagegroupSize)

def carveAll (npages endaddr : ℕ) : (ℕ → List ℕ) × ℕ :=
  (List.range (PAGE_NSIZES - 1)).foldl (carve npages) (fun _ => [], endaddr)

/-- `_pagegroup_create`; `mem` is what the memory holds beforehand. -/
def pagegroupCreate (mem : ℕ → Bool) (start stop : ℕ) : Pagegroup :=
  let maps := reserveMaps mem (wordSub stop start >>> PAGE_SHIFT) stop
  -- the rest of the page the maps end in is discarded
  let endaddr := pageAlignDown maps.2.2
  let npages := wordSub endaddr start >>> PAGE_SHIFT
  let small := carveAll npages endaddr
  { freelist := update small.1 (PAGE_NSIZES - 1)
      (fillLargest small.2 npages start [])
    map := maps.2.1
    baseaddr := start
    endaddr := endaddr
    mem := maps.1 }

def pageInit : State := { groups := [], freecount := 0 }

def pageAddRange (mem : ℕ → Bool) (start stop : ℕ) (s : State) : State :=
  let g := pagegroupCreate mem (pageAlignDown start) (pageAlignDown stop)
  if g.baseaddr < g.endaddr then
    { groups := s.groups ++ [g],
      freecount := word (s.freecount + (g.endaddr - g.baseaddr) >>> PAGE_SHIFT) }
  else s

/-! ### Allocation -/

def calculateIndex (g : Pagegroup) (order addr : ℕ) : Except Fault ℕ :=
  if addr % PAGE_SIZE = 0 ∧ order < PAGE_NSIZES ∧ g.baseaddr ≤ addr ∧ addr < g.endaddr ∧
      (addr - g.baseaddr) % 2 ^ order = 0 then
    .ok (((addr - g.baseaddr) >>> order) >>> PAGE_SHIFT)
  else .error .kassert

/-- Flips the pair bit that the block at `addr`, of order `order`, shares with its
buddy; the largest order has none. -/
def flipPair (g : Pagegroup) (order addr : ℕ) : Except Fault Pagegroup :=
  if order < PAGE_NSIZES - 1 then do
    let index ← calculateIndex g (order + 1) addr
    return g.bitFlip (order + 1) index
  else return g

/-- `__page_split` -/
def pageSplitOnce (g : Pagegroup) (order : ℕ) : Except Fault Pagegroup :=
  if 0 < order ∧ order < PAGE_NSIZES then
    match g.freelist order with
    | [] => .error .kassert
    | target :: rest => do
      let g ← flipPair (g.setFree order rest) order target
      let index ← calculateIndex g order target
      if g.bitCheck order index then .error .pairBit
      else
        let buddy := word (target + ((1 <<< (order - 1)) <<< PAGE_SHIFT))
        return (g.insertHead (order - 1) target).insertHead (order - 1) buddy
  else .error .kassert

/-- The `while (norder > order)` loop of `_page_split`; `d` is `norder - order`. -/
def splitDown (order : ℕ) : ℕ → Pagegroup → Except Fault Pagegroup
  | 0, g => .ok g
  | d + 1, g => do
    let g ← pageSplitOnce g (order + (d + 1))
    splitDown order d g

/-- A pointer to a group of the list, with the groups before and after it. -/
structure Cursor where
  before : List Pagegroup
  group : Pagegroup
  after : List Pagegroup

def Cursor.groups (c : Cursor) : List Pagegroup := c.before ++ c.group :: c.after

def firstGroup (p : Pagegroup → Bool) : List Pagegroup → Option Cursor
  | [] => none
  | g :: gs =>
      if p g then some ⟨[], g, gs⟩
      else (firstGroup p gs).map fun c => { c with before := g :: c.before }

def hasFree (order : ℕ) (g : Pagegroup) : Bool := !(g.freelist order).isEmpty

/-- The `for` loop of `_page_split` over the orders still to be tried. -/
def splitSearch (order : ℕ) (gs : List Pagegroup) : List ℕ → Except Fault (Option Cursor)
  | [] => .ok none
  | norder :: rest =>
      match firstGroup (hasFree norder) gs with
      | none => splitSearch order gs rest
      | some c => do
        let g ← splitDown order (norder - order) c.group
        if hasFree order g then return some { c with group := g } else .error .kassert

/-! ### Freeing -/

def buddyOf (g : Pagegroup) (order addr : ℕ) : ℕ :=
  let offset := addr - g.baseaddr
  if ((offset >>> PAGE_SHIFT) >>> order) % 2 = 1 then wordSub addr ((1 <<< order) <<< PAGE_SHIFT)
  else word (addr + ((1 <<< order) <<< PAGE_SHIFT))

/-- One round of the `__page_join` loop. -/
def joinOnce (g : Pagegroup) (order addr : ℕ) : Except Fault (Pagegroup × ℕ) := do
  let buddy := buddyOf g order addr
  let g ← g.listRemove addr
  let g ← g.listRemove buddy
  let addr := min addr buddy
  let g ← flipPair (g.insertHead (order + 1) addr) (order + 1) addr
  return (g, addr)

/-- `__page_join`; the first argument is `PAGE_NSIZES - 1 - order`, the number of rounds
left before the largest order is reached. -/
def pageJoin : ℕ → Pagegroup → ℕ → ℕ → Except Fault Pagegroup
  | 0, g, _, _ => .ok g
  | d + 1, g, order, addr => do
    let index ← calculateIndex g (order + 1) addr
    if g.bitCheck (order + 1) index then return g
    else
      let (g, addr) ← joinOnce g order addr
      pageJoin d g (order + 1) addr

def pagegroupFromAddress (addr : ℕ) (g : Pagegroup) : Bool :=
  g.baseaddr ≤ addr && addr < g.endaddr

/-- What `_page_free_order` does in the group the address falls in. -/
def freeInGroup (g : Pagegroup) (order addr : ℕ) : Except Fault Pagegroup := do
  let g := g.insertHead order addr
  if order < PAGE_NSIZES - 1 then
    let g ← flipPair g order addr
    pageJoin (PAGE_NSIZES - 1 - order) g order addr
  else return g

def pageFreeOrder (s : State) (addr order : ℕ) : Except Fault State :=
  match firstGroup (pagegroupFromAddress addr) s.groups with
  | none => .ok s
  | some c => do
    let g ← freeInGroup c.group order addr
    return { groups := { c with group := g }.groups, freecount := word (s.freecount + 1 <<< order) }

/-- A `uint32_t` read as an `int`. -/
def toInt (n : ℕ) : ℤ := if n % 2 ^ 32 < 2 ^ 31 then n % 2 ^ 32 else (n % 2 ^ 32 : ℤ) - 2 ^ 32

/-- The search for an order with which `page_alloc_n` and `page_free_n` begin. -/
def orderOf (npages : ℕ) : Except Fault ℕ :=
  match (List.range PAGE_NSIZES).find? fun order => toInt npages ≤ 1 <<< order with
  | some order => .ok order
  | none => .error .panic

def pageFreeN (s : State) (addr npages : ℕ) : Except Fault State := do
  let order ← orderOf npages
  pageFreeOrder s addr order

def pageFree (s : State) (addr : ℕ) : Except Fault State := pageFreeOrder s addr 0

/-- `slab_allocators_reclaim`, as far as the page allocator sees it: each slab it gives
back is passed to `page_free_n`. -/
def reclaim (slabs : List (ℕ × ℕ)) (s : State) : Except Fault State :=
  slabs.foldlM (fun s b => pageFreeN s b.1 b.2) s

/-- `_page_alloc_order`. The result is `none` where the code returns `NULL`; then the
slabs have been reclaimed, and there is no second try. -/
def pageAllocOrder (s : State) (slabs : List (ℕ × ℕ)) (order : ℕ) :
    Except Fault (Option ℕ × State) := do
  let found ← match firstGroup (hasFree order) s.groups with
    | some c => pure (some c)
    | none => splitSearch order s.groups (List.range' (order + 1) (PAGE_NSIZES - (order + 1)))
  match found with
  | none => return (none, ← reclaim slabs s)
  | some c =>
    match c.group.freelist order with
    | [] => .error .kassert
    | addr :: rest =>
      let g ← flipPair (c.group.setFree order rest) order addr
      return (some addr, { groups := { c with group := g }.groups,
                           freecount := wordSub s.freecount (1 <<< order) })

def pageAlloc (s : State) (slabs : List (ℕ × ℕ)) : Except Fault (Option ℕ × State) :=
  pageAllocOrder s slabs 0

def pageAllocN (s : State) (slabs : List (ℕ × ℕ)) (npages : ℕ) :
    Except Fault (Option ℕ × State) := do
  let order ← orderOf npages
  pageAllocOrder s slabs order

/-! ### Runs -/

inductive Op where
  | alloc (slabs : List (ℕ × ℕ))
  | allocN (npages : ℕ) (slabs : List (ℕ × ℕ))
  | free (addr : ℕ)
  | freeN (addr npages : ℕ)

/-- The allocator together with the blocks that are live, each with the page count it
was asked for. -/
structure Sys where
  st : State
  live : List (ℕ × ℕ)

def liveAfter (live slabs : List (ℕ × ℕ)) (npages : ℕ) : Option ℕ → List (ℕ × ℕ)
  | some addr => (addr, npages) :: live
  | none => live.diff slabs

def step (s : Sys) : Op → Except Fault Sys
  | .alloc slabs => do
    let (addr, st) ← pageAlloc s.st slabs
    return ⟨st, liveAfter s.live slabs 1 addr⟩
  | .allocN npages slabs => do
    let (addr, st) ← pageAllocN s.st slabs npages
    return ⟨st, liveAfter s.live slabs npages addr⟩
  | .free addr => do
    let st ← pageFree s.st addr
    return ⟨st, s.live.erase (addr, 1)⟩
  | .freeN addr npages => do
    let st ← pageFreeN s.st addr npages
    return ⟨st, s.live.erase (addr, npages)⟩

/-- A free names a live block with its page count, and so does every slab that is given
back when memory runs out. -/
def Matched (s : Sys) : Op → Prop
  | .alloc slabs => slabs.Nodup ∧ slabs ⊆ s.live
  | .allocN _ slabs => slabs.Nodup ∧ slabs ⊆ s.live
  | .free addr => (addr, 1) ∈ s.live
  | .freeN addr npages => (addr, npages) ∈ s.live

/-- A range of addresses given to `page_add_range`. -/
structure Range where
  start : ℕ
  stop : ℕ
  le : start ≤ stop
  lt : stop < 2 ^ 32

/-- `page_init` and one `page_add_range` for each range, in memory with contents `mem`. -/
def boot (mem : ℕ → Bool) (ranges : List Range) : Sys :=
  ⟨ranges.foldl (fun st r => pageAddRange mem r.start r.stop st) pageInit, []⟩

end Weenix.Page
