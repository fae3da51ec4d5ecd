import Weenix.Lib.Cover
import Weenix.Spec.Elf
import Weenix.Spec.Page

/-! The pages of a program and of its stack: `_elf32_map_segment`, `_elf32_map_progsegs`,
`_elf32_calc_progbounds` and the stack of `_elf32_load` in `api/elf32.c`. The address map is a table
of pages. Where `vmmap_map` or the copy of the last page of the file fails, so does the caller. -/

namespace Weenix.Elf

open Cover Page

def DEFAULT_STACK_SIZE : ℕ := 56 * 1024

def addrToPn (addr : ℕ) : ℕ := addr / PAGE_SIZE

def pageAlignUp (x : ℕ) : ℕ := word (pageAlignDown (wordSub x 1) + PAGE_SIZE)

/-- The fields of `Elf32_Phdr` that decide where a segment goes; `load` is the type `PT_LOAD`. -/
structure Phdr where
  load : Bool
  offset : ℕ
  vaddr : ℕ
  filesz : ℕ
  memsz : ℕ
  align : ℕ
  words : ∀ x ∈ [offset, vaddr, filesz, memsz, align], x < 2 ^ 32

/-- The segment that each page is mapped for, by its number. -/
abbrev Vmmap := ℕ → Option ℕ

def vmmapIsRangeEmpty (map : Vmmap) (lopage npages : ℕ) : Bool :=
  (List.range' lopage npages).all fun page => map page = none

def vmmapMap (map : Vmmap) (pages : ℕ × ℕ) (i : ℕ) : Vmmap := fun page =>
  if Covers page pages then some i else map page

/-- The address of a segment that is moved by `memoff` pages; `none` is the assertion. -/
def Phdr.addr (seg : Phdr) (memoff : ℤ) : Option ℕ :=
  if memoff < 0 then
    if (-memoff).toNat < addrToPn seg.vaddr then some (seg.vaddr - (-memoff).toNat * PAGE_SIZE)
    else none
  else some (word (seg.vaddr + memoff.toNat * PAGE_SIZE))

/-- The pages mapped from the file, `lopage` and `npages`. -/
def Phdr.filePages (seg : Phdr) (addr : ℕ) : ℕ × ℕ :=
  let lopage := addrToPn addr
  (lopage, if 0 < seg.filesz then
    word (wordSub (addrToPn (word (addr + seg.filesz - 1))) lopage + 1) else 0)

/-- The pages that are to be zero. -/
def Phdr.zeroPages (seg : Phdr) (addr : ℕ) : ℕ × ℕ :=
  let lopage := addrToPn (word (addr + seg.filesz))
  (lopage, if seg.filesz < seg.memsz then
    wordSub (addrToPn (pageAlignUp (word (addr + seg.memsz)))) lopage else 0)

/-- `_elf32_map_segment`, for the segment `i`. -/
def mapSegment (map : Vmmap) (memoff : ℤ) (i : ℕ) (seg : Phdr) : Option Vmmap := do
  let addr ← seg.addr memoff
  if seg.align ≠ PAGE_SIZE ∨ seg.memsz < seg.filesz ∨
      addr % PAGE_SIZE ≠ seg.offset % PAGE_SIZE then none
  else
    let file := seg.filePages addr
    if !vmmapIsRangeEmpty map file.1 file.2 then none
    else
      let map := vmmapMap map file i
      let zero := seg.zeroPages addr
      if 1 < zero.2 ∧ !vmmapIsRangeEmpty map (zero.1 + 1) (zero.2 - 1) then none
      else some (vmmapMap map zero i)

/-- The loop of `_elf32_map_progsegs`, from the segment `i` on. -/
def mapSegments (memoff : ℤ) : List Phdr → ℕ → Vmmap → Option Vmmap
  | [], _, map => some map
  | seg :: pht, i, map =>
    (if seg.load then mapSegment map memoff i seg else some map).bind (mapSegments memoff pht (i + 1))

/-- `_elf32_map_progsegs` on an empty map. -/
def mapProgsegs (pht : List Phdr) (memoff : ℤ) : Option Vmmap :=
  if pht.any (·.load) then mapSegments memoff pht 0 fun _ => none else none

/-- `_elf32_calc_progbounds` -/
def calcProgbounds (pht : List Phdr) : ℕ × ℕ :=
  (pht.filter (·.load)).foldl (fun cur seg => (min cur.1 seg.vaddr,
    max cur.2 (word (seg.vaddr + seg.memsz)))) (2 ^ 32 - 1, 0)

/-- The part of `_elf32_load` that makes the stack: its pages, and the place of the arguments. -/
def loadStack (pht : List Phdr) (argv envp : List CString) (auxv : List Auxv) (phtsize : ℕ) :
    Option ((ℕ × ℕ) × ℕ × ℕ) := do
  let _ ← mapProgsegs pht 0
  let proglow := (calcProgbounds pht).1
  let stackLopage := wordSub (wordSub (addrToPn proglow) (DEFAULT_STACK_SIZE / PAGE_SIZE)) 1
  let argsize := (calcArgsize argv envp auxv phtsize).1
  if DEFAULT_STACK_SIZE ≤ argsize then none
  else some ((stackLopage, DEFAULT_STACK_SIZE / PAGE_SIZE + 1), wordSub proglow argsize / 4 * 4, argsize)

end Weenix.Elf
