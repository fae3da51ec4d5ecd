import Weenix.Spec.Slab

/-! `kmalloc` and `kfree` of `kernel/mm/slab.c`, and the copies of user data that
`kernel/api/access.c` makes with them. Sizes are 32-bit words. -/

namespace Weenix.Slab

open Memory Page

def KMALLOC_SIZE_MIN_ORDER : ℕ := 6
def KMALLOC_SIZE_MAX_ORDER : ℕ := 18

def MM_POISON_ALLOC : UInt8 := 0xBB

/-- `sizeof(struct slab_allocator *)` -/
def allocatorPtrSizeof : ℕ := 4
def argstrSizeof : ℕ := 8
def charPtrSizeof : ℕ := 4

inductive KmallocFault where
  | slab (fault : Fault)
  /-- The size is bigger than the largest bucket. -/
  | panic
deriving DecidableEq, Repr

/-- The first bucket of at least the size. -/
def kmallocOrder (size : ℕ) : Option ℕ :=
  (List.range' KMALLOC_SIZE_MIN_ORDER (KMALLOC_SIZE_MAX_ORDER + 1 - KMALLOC_SIZE_MIN_ORDER)).find?
    fun order => size ≤ 1 <<< order

def liftSlab {α : Type} : Except Fault α → Except KmallocFault α
  | .ok x => .ok x
  | .error f => .error (.slab f)

/-- `kmalloc`. The allocators by their orders are `cs`; `page` and `junk` are the answer of the page
allocator, should one be needed. -/
def kmalloc (cs : ℕ → ℕ) (s : Sys) (page : Option ℕ) (junk : Mem) (size : ℕ) :
    Except KmallocFault (ℕ × Sys) :=
  let size := word (size + allocatorPtrSizeof)
  match kmallocOrder size with
  | none => .error .panic
  | some order => do
    let (addr, st) ← liftSlab (slabObjAlloc (s.allocs.length + 1) s.st (cs order) page junk)
    if addr = 0 then return (0, { s with st := st })
    else
      let m := writeBytes st.mem addr (List.replicate size MM_POISON_ALLOC)
      let m := write32 m addr (cs order)
      return (addr + allocatorPtrSizeof, s.handOut (cs order) addr { st with mem := m })

/-- `kfree`: the allocator stands before the block. -/
def kfree (s : Sys) (addr : ℕ) : Except KmallocFault Sys := do
  let obj := addr - allocatorPtrSizeof
  let a := read32 s.st.mem obj
  let st ← liftSlab (slabObjFree s.st a obj)
  return { s with st := st, live := s.live.erase (a, obj) }

/-- The memory of the process, and whether a range of it may be read. -/
structure User where
  mem : Mem
  perm : ℕ → ℕ → Bool

/-- `copy_from_user` -/
def copyFromUser (u : User) (s : Sys) (kaddr uaddr nbytes : ℕ) : Option Sys :=
  if u.perm uaddr nbytes then
    some { s with st := { s.st with mem := writeBytes s.st.mem kaddr (bytes u.mem uaddr nbytes) } }
  else none

/-- `user_strdup`, which returns null if there is no memory or the string cannot be read. -/
def userStrdup (cs : ℕ → ℕ) (u : User) (s : Sys) (page : Option ℕ) (junk : Mem) (asStr asLen : ℕ) :
    Except KmallocFault (ℕ × Sys) := do
  let (kstr, s) ← kmalloc cs s page junk (word (asLen + 1))
  if kstr = 0 then return (0, s)
  else
    match copyFromUser u s kstr asStr (word (asLen + 1)) with
    | none => return (0, ← kfree s kstr)
    | some s => return (kstr, s)

/-- The two buffers of `user_vecdup`, `temp_kvec` and `kvec`; a null pointer is the first that could
not be had. The answers of the page allocator are numbered by the calls of `kmalloc`. -/
def vecBuffers (cs : ℕ → ℕ) (s : Sys) (ans : ℕ → Option ℕ × Mem) (avLen : ℕ) :
    Except KmallocFault (ℕ × ℕ × Sys) := do
  let (temp, s) ← kmalloc cs s (ans 0).1 (ans 0).2 (word (word (avLen + 1) * argstrSizeof))
  if temp = 0 then return (0, 0, s)
  else
    let (kvec, s) ← kmalloc cs s (ans 1).1 (ans 1).2 (word (word (avLen + 1) * charPtrSizeof))
    return (temp, kvec, s)

/-- What `user_vecdup` depends on, with each call of `kmalloc` and `copy_from_user` by its number: the block
returned, 0 for none, and whether the copy succeeds; and what the words of the new vector are. -/
structure Callees where
  kmalloc : ℕ → ℕ
  copyFromUser : ℕ → Bool
  words : ℕ → ℕ

/-- The blocks that `kmalloc` has returned, and what `kfree` has been given. -/
structure Blocks where
  allocated : Multiset ℕ
  freed : Multiset ℕ

def Blocks.kmalloc (b : Blocks) (addr : ℕ) : Blocks :=
  if addr = 0 then b else { b with allocated := addr ::ₘ b.allocated }

def Blocks.kfree (b : Blocks) (addr : ℕ) : Blocks := { b with freed := addr ::ₘ b.freed }

namespace Callees
variable (c : Callees)

/-- `user_strdup` of the string `i` of a vector. -/
def userStrdup (i : ℕ) (b : Blocks) : ℕ × Blocks :=
  let kstr := c.kmalloc (2 + i)
  let b := b.kmalloc kstr
  if kstr = 0 then (0, b) else if c.copyFromUser (1 + i) then (kstr, b) else (0, b.kfree kstr)

/-- The loop of `user_vecdup` over the strings still to be copied, the next of which is `i`. -/
def vecLoop : ℕ → ℕ → (ℕ → ℕ) → Blocks → Bool × (ℕ → ℕ) × Blocks
  | 0, _, kvec, b => (true, kvec, b)
  | n + 1, i, kvec, b =>
    let (kstr, b) := c.userStrdup i b
    let kvec := Function.update kvec i kstr
    if kstr = 0 then (false, kvec, b) else vecLoop n (i + 1) kvec b

/-- The loop at `fail`; `none` is more rounds than were allowed for. -/
def failLoop (kvec : ℕ → ℕ) : ℕ → ℕ → Blocks → Option Blocks
  | 0, _, _ => none
  | fuel + 1, i, b => if kvec i = 0 then some b else failLoop kvec fuel (i + 1) (b.kfree (kvec i))

/-- `user_vecdup`: the vector returned, its words and the blocks. -/
def userVecdup (fuel avLen : ℕ) : Option (ℕ × (ℕ → ℕ) × Blocks) :=
  let temp := c.kmalloc 0
  let b := (Blocks.mk 0 0).kmalloc temp
  if temp = 0 then some (0, c.words, b.kfree temp)
  else
    let kvec := c.kmalloc 1
    let b := b.kmalloc kvec
    if kvec = 0 then some (0, c.words, b.kfree temp)
    else
      let (done, words, b) := if c.copyFromUser 0 then c.vecLoop avLen 0 c.words b else (false, c.words, b)
      if done then some (kvec, Function.update words avLen 0, b.kfree temp)
      else (failLoop words fuel 0 b).map fun b => (0, words, (b.kfree kvec).kfree temp)

end Callees

end Weenix.Slab
