import Weenix.Spec.Page

/-! The page directories of `kernel/mm/pagetable.c`. A directory is a record with the two
arrays of the source. Tables lie in physical memory, whose pages are words by index; the
kernel reaches a table at its virtual address, which the directory in `cr3` translates. The
page allocator appears through its answers and through the pages given back to it. -/

namespace Weenix.Pt

open Function

open Weenix.Page (PAGE_SHIFT PAGE_SIZE word wordSub pageAlignDown)

def PT_ENTRY_COUNT : ℕ := PAGE_SIZE / 4

def PT_VADDR_SIZE : ℕ := PAGE_SIZE * PT_ENTRY_COUNT

def PT_PRESENT : ℕ := 1

def PT_WRITE : ℕ := 2

def PD_PRESENT : ℕ := 1

def PD_WRITE : ℕ := 2

def USER_MEM_LOW : ℕ := 0x00400000

def USER_MEM_HIGH : ℕ := 0xc0000000

def ENOMEM : ℤ := 12

inductive Fault where
  | kassert
  | pageFault
  /-- The loop of `pt_init` has not ended within the iterations given to it. -/
  | endless
  deriving DecidableEq, Repr

structure Pagedir where
  physical : ℕ → ℕ
  virtual : ℕ → ℕ

/-- The words of each page of physical memory, by the address of the page. -/
abbrev Frames := ℕ → ℕ → ℕ

def vaddrToPdindex (vaddr : ℕ) : ℕ := (word vaddr >>> PAGE_SHIFT) / PT_ENTRY_COUNT

def vaddrToPtindex (vaddr : ℕ) : ℕ := (word vaddr >>> PAGE_SHIFT) % PT_ENTRY_COUNT

def vaddrToOffset (vaddr : ℕ) : ℕ := word vaddr % PAGE_SIZE

def present (entry : ℕ) : Bool := (PT_PRESENT &&& entry) != 0

def Pagedir.setEntry (pd : Pagedir) (index physical virtual : ℕ) : Pagedir :=
  { physical := update pd.physical index physical
    virtual := update pd.virtual index virtual }

/-- `memset` of the words from `low` up to `high` of a page. -/
def clear (m : Frames) (frame low high : ℕ) : Frames :=
  update m frame fun i => if low ≤ i ∧ i < high then 0 else m frame i

def setWord (m : Frames) (frame index v : ℕ) : Frames :=
  update m frame (update (m frame) index v)

section
variable (cur : Pagedir)

/-- The frame of the page at a virtual address of the kernel. -/
def frameOf (m : Frames) (vaddr : ℕ) : ℕ :=
  pageAlignDown (m (pageAlignDown (cur.physical (vaddrToPdindex vaddr))) (vaddrToPtindex vaddr))

/-- `pt_phys_tmp_map`, which maps the last page of the address space. -/
def ptPhysTmpMap (finalPage : ℕ) (m : Frames) (paddr : ℕ) : Except Fault (ℕ × Frames) :=
  if paddr % PAGE_SIZE = 0 then
    .ok (2 ^ 32 - PAGE_SIZE,
      setWord m (frameOf cur m finalPage) (PT_ENTRY_COUNT - 1) (paddr ||| PT_PRESENT ||| PT_WRITE))
  else .error .kassert

/-- `pt_virt_to_phys`, with `cur` as the current directory. -/
def ptVirtToPhys (finalPage : ℕ) (m : Frames) (vaddr : ℕ) : Except Fault (ℕ × Frames) := do
  let table := vaddrToPdindex vaddr
  let entry := vaddrToPtindex vaddr
  let offset := vaddrToOffset vaddr
  let (pagetable, m) ← ptPhysTmpMap cur finalPage m (pageAlignDown (cur.physical table))
  let page := pageAlignDown (m (frameOf cur m pagetable) entry)
  return (page + offset, m)

/-- `pt_map`; `page` is what `page_alloc` answers if it is called. The list holds the page
taken from the allocator, if there is one. -/
def ptMap (finalPage : ℕ) (m : Frames) (pd : Pagedir) (vaddr paddr pdflags ptflags : ℕ) (page : Option ℕ) :
    Except Fault (ℤ × Pagedir × Frames × List ℕ) :=
  if vaddr % PAGE_SIZE = 0 ∧ paddr % PAGE_SIZE = 0 ∧ USER_MEM_LOW ≤ vaddr ∧ vaddr < USER_MEM_HIGH then
    let index := vaddrToPdindex vaddr
    let enter (pd : Pagedir) (m : Frames) (pt : ℕ) (taken : List ℕ) :
        Except Fault (ℤ × Pagedir × Frames × List ℕ) :=
      if ptflags % PAGE_SIZE = ptflags then
        .ok (0, pd, setWord m (frameOf cur m pt) (vaddrToPtindex vaddr) (paddr ||| ptflags), taken)
      else .error .kassert
    if present (pd.physical index) then
      -- the flags are not checked here
      enter { pd with physical := update pd.physical index (pd.physical index ||| pdflags) } m
        (pd.virtual index) []
    else
      match page with
      | none => .ok (-ENOMEM, pd, m, [])
      | some pt =>
        if pdflags % PAGE_SIZE = pdflags then do
          let m := clear m (frameOf cur m pt) 0 PT_ENTRY_COUNT
          let (phys, m) ← ptVirtToPhys cur finalPage m pt
          enter (pd.setEntry index (phys ||| pdflags) pt) m pt [pt]
        else .error .kassert
  else .error .kassert

/-- `pt_unmap` -/
def ptUnmap (m : Frames) (pd : Pagedir) (vaddr : ℕ) : Except Fault Frames :=
  if vaddr % PAGE_SIZE = 0 ∧ USER_MEM_LOW ≤ vaddr ∧ vaddr < USER_MEM_HIGH then
    let index := vaddrToPdindex vaddr
    if present (pd.physical index) then
      .ok (setWord m (frameOf cur m (pd.virtual index)) (vaddrToPtindex vaddr) 0)
    else .ok m
  else .error .kassert

/-- The last loop of `pt_unmap_range`, over the indices given: the directory, and the tables
given to `page_free`. -/
def freeTables : List ℕ → Pagedir → Pagedir × List ℕ
  | [], pd => (pd, [])
  | i :: l, pd =>
    if present (pd.physical i) then
      let (pd', freed) := freeTables l (pd.setEntry i 0 0)
      (pd', pd.virtual i :: freed)
    else freeTables l pd

/-- The `memset` in the table of one end of the range, which is skipped if the table lies in the
range up to that end. -/
def clearPart (m : Frames) (pd : Pagedir) (vaddr low high : ℕ) : Frames :=
  if present (pd.physical (vaddrToPdindex vaddr)) ∧ vaddrToPtindex vaddr ≠ 0 then
    clear m (frameOf cur m (pd.virtual (vaddrToPdindex vaddr))) low high
  else m

/-- `pt_unmap_range`: the directory, the memory, and the tables given to `page_free`. -/
def ptUnmapRange (m : Frames) (pd : Pagedir) (vlow vhigh : ℕ) : Except Fault (Pagedir × Frames × List ℕ) :=
  if vlow < vhigh ∧ vlow % PAGE_SIZE = 0 ∧ vhigh % PAGE_SIZE = 0 ∧ USER_MEM_LOW ≤ vlow ∧
      vhigh ≤ USER_MEM_HIGH then
    let m := clearPart cur m pd vlow (vaddrToPtindex vlow) PT_ENTRY_COUNT
    let low := vlow + PAGE_SIZE * ((PT_ENTRY_COUNT - vaddrToPtindex vlow) % PT_ENTRY_COUNT)
    let m := clearPart cur m pd vhigh 0 (vaddrToPtindex vhigh)
    let high := vhigh - PAGE_SIZE * vaddrToPtindex vhigh
    let r := freeTables (List.range' (vaddrToPdindex low) (vaddrToPdindex high - vaddrToPdindex low)) pd
    .ok (r.1, m, r.2)
  else .error .kassert

end

/-- `pt_create_pagedir`; `page` is the answer of `page_alloc_n(2)`. -/
def ptCreatePagedir (template : Pagedir) (page : Option ℕ) : Option (ℕ × Pagedir) :=
  page.map fun pdir => (pdir, template)

/-- `pt_destroy_pagedir`: the pages given back, in the order of the calls. -/
def ptDestroyPagedir (pdir : ℕ) (pd : Pagedir) : Except Fault (List ℕ) :=
  if pdir % PAGE_SIZE = 0 then
    let first := USER_MEM_LOW / PT_VADDR_SIZE
    let last := (USER_MEM_HIGH - 1) / PT_VADDR_SIZE
    .ok (((List.range' first (last + 1 - first)).filter fun i => present (pd.physical i)).map pd.virtual ++
      [pdir, pdir + PAGE_SIZE])
  else .error .kassert

/-! ### The walk -/

/-- The entry that a walk of the two levels ends at. -/
def entryOf (m : Frames) (pd : Pagedir) (vaddr : ℕ) : ℕ :=
  if present (pd.physical (vaddrToPdindex vaddr)) then
    m (pageAlignDown (pd.physical (vaddrToPdindex vaddr))) (vaddrToPtindex vaddr)
  else 0

/-- What the hardware finds for an address: the frame and the flags of its page. -/
def walk (m : Frames) (pd : Pagedir) (vaddr : ℕ) : Option (ℕ × ℕ) :=
  let entry := entryOf m pd vaddr
  if present entry then some (pageAlignDown entry, entry % PAGE_SIZE) else none

/-! ### Calls on several directories -/

/-- The directories in use by their addresses; `owner` records for which of them the page
allocator gave out a page. -/
structure Sys where
  mem : Frames
  dirs : ℕ → Option Pagedir
  owner : ℕ → Option ℕ

/-- The pages of a list change hands. -/
def give (owner : ℕ → Option ℕ) (pages : List ℕ) (d : Option ℕ) : ℕ → Option ℕ := fun p =>
  if p ∈ pages then d else owner p

/-- The calls, each with the answer of the page allocator and the directory in `cr3`, which is
the one of `pt_init` or one that was created. `other` is what the rest of the system writes. -/
inductive Event where
  | create (page : Option ℕ)
  | map (cur : Option ℕ) (d vaddr paddr pdflags ptflags : ℕ) (page : Option ℕ)
  | unmap (cur : Option ℕ) (d vaddr : ℕ)
  | destroy (d : ℕ)
  | other (mem : Frames)

/-- The value a call returns, and the pages it gives back to the page allocator. -/
structure Outcome where
  result : ℤ
  freed : List ℕ

/-- `final_page`, which `pt_init` enters as the last table of its directory. -/
def Pagedir.finalPage (template : Pagedir) : ℕ := template.virtual (PT_ENTRY_COUNT - 1)

/-- The template is a copy of the directory of `pt_init`. -/
def Sys.current (template : Pagedir) (s : Sys) : Option ℕ → Option Pagedir
  | none => some template
  | some c => s.dirs c

def step (template : Pagedir) (s : Sys) : Event → Except Fault (Sys × Outcome)
  | .create page =>
    match ptCreatePagedir template page with
    | some (pdir, pd) =>
      .ok ({ s with
        dirs := update s.dirs pdir (some pd)
        owner := give s.owner [pdir, pdir + PAGE_SIZE] (some pdir) }, ⟨pdir, []⟩)
    | none => .ok (s, ⟨0, []⟩)
  | .map cur d vaddr paddr pdflags ptflags page =>
    match s.current template cur, s.dirs d with
    | some cur, some pd =>
      match ptMap cur template.finalPage s.mem pd vaddr paddr pdflags ptflags page with
      | .ok (result, pd, m, taken) =>
        .ok ({ mem := m
               dirs := update s.dirs d (some pd)
               owner := give s.owner taken (some d) }, ⟨result, []⟩)
      | .error e => .error e
    | _, _ => .error .pageFault
  | .unmap cur d vaddr =>
    match s.current template cur, s.dirs d with
    | some cur, some pd =>
      match ptUnmap cur s.mem pd vaddr with
      | .ok m => .ok ({ s with mem := m }, ⟨0, []⟩)
      | .error e => .error e
    | _, _ => .error .pageFault
  | .destroy d =>
    match s.dirs d with
    | some pd =>
      match ptDestroyPagedir d pd with
      | .ok freed =>
        .ok ({ s with
          dirs := update s.dirs d none
          owner := give s.owner freed none }, ⟨0, freed⟩)
      | .error e => .error e
    | none => .error .pageFault
  | .other mem => .ok ({ s with mem := mem }, ⟨0, []⟩)

/-! ### Boot -/

def KERNEL_PHYS_BASE : ℕ := 0x100000

/-- The address of `kernel_start`, from the linker script. -/
def kernelStart : ℕ := 0xc0000000

/-- The machine while `pt_init` runs. `temppdir` is the directory of the boot loader, `cr3`
the physical address of the one in use, `swapped` tells that this is `pagedir`. -/
structure Boot where
  temppdir : ℕ → ℕ
  pagedir : Pagedir
  mem : Frames
  cr3 : ℕ
  swapped : Bool

namespace Boot

/-- The directory in use. -/
def dir (b : Boot) : ℕ → ℕ := if b.swapped then b.pagedir.physical else b.temppdir

/-- A word of physical memory, where the directory in use lies too. -/
def wordAt (b : Boot) (frame index : ℕ) : ℕ := if frame = b.cr3 then b.dir index else b.mem frame index

def translate (b : Boot) (vaddr : ℕ) : Except Fault ℕ :=
  let pde := b.dir (vaddrToPdindex vaddr)
  if present pde then
    let pte := b.wordAt (pageAlignDown pde) (vaddrToPtindex vaddr)
    if present pte then .ok (pageAlignDown pte + vaddrToOffset vaddr) else .error .pageFault
  else .error .pageFault

/-- A load of the word with the given index in a page. -/
def load (b : Boot) (vaddr index : ℕ) : Except Fault ℕ := do
  let frame ← b.translate vaddr
  return b.wordAt frame index

/-- The words stored into a page. -/
def storePage (b : Boot) (vaddr : ℕ) (words : ℕ → ℕ) : Except Fault Boot := do
  let frame ← b.translate vaddr
  return { b with mem := update b.mem frame words }

/-- `pt_phys_tmp_map`, with the page `finalPage` as the table of the temporary mapping. -/
def ptPhysTmpMap (b : Boot) (finalPage paddr : ℕ) : Except Fault (ℕ × Boot) :=
  if paddr % PAGE_SIZE = 0 then do
    let frame ← b.translate finalPage
    let b := { b with mem := setWord b.mem frame (PT_ENTRY_COUNT - 1) (paddr ||| PT_PRESENT ||| PT_WRITE) }
    return (2 ^ 32 - PAGE_SIZE, b)
  else .error .kassert

/-- The physical page of a virtual address, read through the temporary mapping. -/
def pageOf (b : Boot) (finalPage entries vaddr : ℕ) : Except Fault (ℕ × Boot) := do
  let (pagetable, b) ← b.ptPhysTmpMap finalPage (pageAlignDown entries)
  let entry ← b.load pagetable (vaddrToPtindex vaddr)
  return (pageAlignDown entry, b)

/-- `_pt_fill_page` -/
def ptFillPage (b : Boot) (finalPage pt pdflags ptflags vstart pstart : ℕ) : Except Fault Boot :=
  if pt ≠ 0 ∧ vstart % PT_VADDR_SIZE = 0 then do
    let b ← b.storePage pt fun i => pageAlignDown (word (i * PAGE_SIZE + pstart)) ||| ptflags % PAGE_SIZE
    -- `temppdir[table]`, at the address in `cr3`
    let entries ← b.load b.cr3 (vaddrToPdindex pt)
    let (page, b) ← b.pageOf finalPage entries pt
    return { b with
      pagedir := b.pagedir.setEntry (vaddrToPdindex vstart) (page ||| pdflags % PAGE_SIZE) pt }
  else .error .kassert

/-- `pt_set` of the new directory. -/
def ptSet (b : Boot) (finalPage pagedir : ℕ) : Except Fault Boot := do
  let (page, b) ← b.pageOf finalPage (b.pagedir.physical (vaddrToPdindex pagedir)) pagedir
  return { b with cr3 := word (page + vaddrToOffset pagedir), swapped := true }

/-- The loop of `pt_init`: the machine and the last table filled. -/
def fillTables (finalPage physmax : ℕ) : ℕ → Boot → ℕ → ℕ → ℕ → Except Fault (Boot × ℕ)
  | 0, _, _, _, _ => .error .endless
  | fuel + 1, b, pagetable, vaddr, paddr => do
    let pagetable := word (pagetable + PAGE_SIZE)
    let vaddr := word (vaddr + PT_VADDR_SIZE)
    let paddr := word (paddr + PT_VADDR_SIZE)
    let b ← b.ptFillPage finalPage pagetable (PD_PRESENT ||| PD_WRITE) (PT_PRESENT ||| PT_WRITE) vaddr paddr
    if paddr < physmax then fillTables finalPage physmax fuel b pagetable vaddr paddr
    else return (b, pagetable)

/-- `pt_init`, with the address of `kernel_end` and what `phys_detect_highmem` returns: the
machine and the two arguments of `page_add_range`. -/
def ptInit (fuel : ℕ) (b : Boot) (kernelEnd physmax : ℕ) : Except Fault (Boot × ℕ × ℕ) :=
  if kernelEnd % PAGE_SIZE = 0 then do
    let pagedir := kernelEnd
    let finalPage := word (pagedir + 2 * PAGE_SIZE)
    let b := { b with pagedir := ⟨fun _ => 0, fun _ => 0⟩ }
    let b ← b.storePage finalPage fun _ => 0
    let final := word (wordSub finalPage kernelStart + KERNEL_PHYS_BASE) ||| PT_PRESENT ||| PT_WRITE
    let b := { b with
      temppdir := update b.temppdir (PT_ENTRY_COUNT - 1) final
      pagedir := b.pagedir.setEntry (PT_ENTRY_COUNT - 1) final finalPage }
    let pagetable := word (finalPage + PAGE_SIZE)
    let b ← b.ptFillPage finalPage pagetable (PD_PRESENT ||| PD_WRITE) (PT_PRESENT ||| PT_WRITE) 0 0
    let pagetable := word (pagetable + PAGE_SIZE)
    let b ← b.ptFillPage finalPage pagetable (PD_PRESENT ||| PD_WRITE) (PT_PRESENT ||| PT_WRITE)
      kernelStart KERNEL_PHYS_BASE
    let b ← b.ptSet finalPage pagedir
    let (b, pagetable) ← fillTables finalPage physmax fuel b pagetable kernelStart KERNEL_PHYS_BASE
    -- a number of bytes, not of entries, is added to the address of the last table
    return (b, word (pagetable + PT_ENTRY_COUNT), wordSub (word (physmax + kernelStart)) KERNEL_PHYS_BASE)
  else .error .kassert

end Boot

/-- The machine as the boot loader leaves it: the first megabytes and the kernel are mapped. -/
def bootLoader : Boot where
  temppdir i := if i = 0 then 0x3103 else if i = kernelStart / PT_VADDR_SIZE then 0x4103 else 0
  pagedir := ⟨fun _ => 0, fun _ => 0⟩
  mem frame i := if frame = 0x3000 then i * PAGE_SIZE + 0x103
    else if frame = 0x4000 then i * PAGE_SIZE + KERNEL_PHYS_BASE + 0x103 else 0
  cr3 := 0x2000
  swapped := false

end Weenix.Pt
