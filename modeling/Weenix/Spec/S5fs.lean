import Weenix.Lib.ByteFile

/-! The S5 file system on a disk image: the classes `Block`, `Inode` and `Simdisk` of the tool
`tools/fsmaker/api.py`, and `s5_free_block` of the kernel, `fs/s5fs/s5fs_subr.c`. -/

namespace Weenix.S5

open ByteFile

def S5_BLOCK_SIZE : ℕ := 4096
def S5_NBLKS_PER_FNODE : ℕ := 30
def S5_NDIRECT_BLOCKS : ℕ := 28
def S5_MAX_FILE_BLOCKS : ℕ := S5_NDIRECT_BLOCKS + S5_BLOCK_SIZE / 4
def S5_MAX_FILE_SIZE : ℕ := S5_MAX_FILE_BLOCKS * S5_BLOCK_SIZE
def S5_INODE_SIZE : ℕ := 16 + S5_NDIRECT_BLOCKS * 4
def S5_INODES_PER_BLOCK : ℕ := S5_BLOCK_SIZE / S5_INODE_SIZE

def S5_TYPE_FREE : ℕ := 0
def S5_TYPE_DATA : ℕ := 1
def S5_TYPE_DIR : ℕ := 2

/-- The link behind the last node of a free list. -/
def S5_NULL : ℕ := 4294967295

inductive S5fsException
  | blockRead (till : ℕ)
  | blockWrite (till : ℕ)
  | freeBlockIndex (index : ℕ)
  | directIndex (index : ℕ)
  | nfree (nfree : ℕ)
  | diskSpace
  | inodeIndex (index num : ℕ)
  | readType (type : ℕ)
  | writeType (type : ℕ)
  | maxFileSize (till : ℕ)
  | nameLong (name : List UInt8)
  | createType (type : ℕ)
  | createSize (size : ℕ)
  | sameName (name : List UInt8)
  | outOfInodes
  | formatInodes (inodes : ℤ)
  | formatSize (size : ℤ)
  | formatSpace (size inodes : ℤ) (bytes : ℕ)
  /-- `struct.error`: a word outside 32 bits, or a read cut short by the end of the image. -/
  | struct
  deriving DecidableEq, Repr

def S5_NAME_LEN : ℕ := 28
def S5_DIRENT_SIZE : ℕ := S5_NAME_LEN + 4

/-- What the tool runs: an exception keeps what was written before it. -/
abbrev Tool := EStateM S5fsException ByteFile

/-! ### The image -/

def simRead (off size : ℕ) : Tool (List UInt8) := fun f => .ok (f.read off size) f

def simWrite (off : ℕ) (data : List UInt8) : Tool Unit := fun f => .ok () (f.write off data)

def unpack (data : List UInt8) : Tool ℕ :=
  match unpacked data with
  | some v => pure v
  | none => throw .struct

def unpackHalf (data : List UInt8) : Tool ℕ :=
  match unpackedHalf data with
  | some v => pure v
  | none => throw .struct

def pack (v : ℕ) : Tool (List UInt8) := if v < 4294967296 then pure (packed v) else throw .struct

def getWord (off : ℕ) : Tool ℕ := do
  let data ← simRead off 4
  unpack data

def setWord (off v : ℕ) : Tool Unit := do
  let data ← pack v
  simWrite off data

/-! ### The superblock -/

def getNfree : Tool ℕ := getWord 8

def setNfree (val : ℕ) : Tool Unit := setWord 8 val

def getFreeBlock (index : ℕ) : Tool ℕ :=
  if index < S5_NBLKS_PER_FNODE - 1 then getWord (12 + 4 * index) else throw (.freeBlockIndex index)

def setFreeBlock (index val : ℕ) : Tool Unit :=
  if index < S5_NBLKS_PER_FNODE - 1 then setWord (12 + 4 * index) val else throw (.freeBlockIndex index)

def getLastFreeBlock : Tool ℕ := getWord (12 + 4 * (S5_NBLKS_PER_FNODE - 1))

def setLastFreeBlock (val : ℕ) : Tool Unit := setWord (12 + 4 * (S5_NBLKS_PER_FNODE - 1)) val

def getNumInodes : Tool ℕ := getWord (16 + 4 * S5_NBLKS_PER_FNODE)

/-! ### Blocks -/

structure Block where
  offset : ℕ
  blockno : ℕ
  deriving DecidableEq

def getBlock (index : ℕ) : Block := ⟨S5_BLOCK_SIZE * index, index⟩

namespace Block

def read (b : Block) (offset size : ℕ) : Tool (List UInt8) :=
  if offset + size > S5_BLOCK_SIZE then throw (.blockRead (offset + size)) else simRead (b.offset + offset) size

def write (b : Block) (offset : ℕ) (data : List UInt8) : Tool Unit :=
  if offset + data.length > S5_BLOCK_SIZE then throw (.blockWrite (offset + data.length))
  else simWrite (b.offset + offset) data

def zero (b : Block) : Tool Unit := simWrite b.offset (List.replicate S5_BLOCK_SIZE 0)

def getWord (b : Block) (offset : ℕ) : Tool ℕ := do
  let data ← b.read offset 4
  unpack data

def setWord (b : Block) (offset v : ℕ) : Tool Unit := do
  let data ← pack v
  b.write offset data

def free (b : Block) : Tool Unit := do
  let nfree ← getNfree
  if nfree < S5_NBLKS_PER_FNODE - 1 then do
    let nfree ← getNfree
    setFreeBlock nfree b.blockno
    let nfree ← getNfree
    setNfree (nfree + 1)
  else do
    (List.range (S5_NBLKS_PER_FNODE - 1)).forM fun i => do
      let entry ← getFreeBlock i
      b.setWord (i * 4) entry
    let last ← getLastFreeBlock
    b.setWord ((S5_NBLKS_PER_FNODE - 1) * 4) last
    setLastFreeBlock b.blockno
    setNfree 0

end Block

def allocBlock : Tool Block := do
  let nfree ← getNfree
  if nfree > S5_NBLKS_PER_FNODE - 1 then throw (.nfree nfree)
  else if nfree = 0 then do
    let last ← getLastFreeBlock
    if last = S5_NULL then throw .diskSpace
    else do
      let block := getBlock last
      (List.range (S5_NBLKS_PER_FNODE - 1)).forM fun i => do
        let entry ← block.getWord (i * 4)
        setFreeBlock i entry
      let more ← block.getWord ((S5_NBLKS_PER_FNODE - 1) * 4)
      setLastFreeBlock more
      setNfree (S5_NBLKS_PER_FNODE - 1)
      return block
  else do
    setNfree (nfree - 1)
    let nfree ← getNfree
    let blockno ← getFreeBlock nfree
    return getBlock blockno

/-! ### Inodes -/

structure Inode where
  number : ℕ
  offset : ℕ

def getInode (index : ℕ) : Tool Inode := do
  let offset := S5_BLOCK_SIZE * (1 + index / S5_INODES_PER_BLOCK) + S5_INODE_SIZE * (index % S5_INODES_PER_BLOCK)
  let num ← getNumInodes
  if index ≥ num then throw (.inodeIndex index num) else return ⟨index, offset⟩

namespace Inode

def getSize (ino : Inode) : Tool ℕ := getWord ino.offset

def setSize (ino : Inode) (val : ℕ) : Tool Unit := setWord ino.offset val

def getType (ino : Inode) : Tool ℕ := do
  let data ← simRead (ino.offset + 8) 2
  unpackHalf data

def getDirectBlockno (ino : Inode) (index : ℕ) : Tool ℕ :=
  if index < S5_NDIRECT_BLOCKS then getWord (ino.offset + 12 + index * 4) else throw (.directIndex index)

def setDirectBlockno (ino : Inode) (index val : ℕ) : Tool Unit :=
  if index < S5_NDIRECT_BLOCKS then setWord (ino.offset + 12 + index * 4) val else throw (.directIndex index)

def getIndirectBlockno (ino : Inode) : Tool ℕ := getWord (ino.offset + 12 + 4 * S5_NDIRECT_BLOCKS)

def setIndirectBlockno (ino : Inode) (val : ℕ) : Tool Unit := setWord (ino.offset + 12 + 4 * S5_NDIRECT_BLOCKS) val

/-- The number of the disk block behind block `blockno` of the file, zero where it is sparse. -/
def readBlockno (ino : Inode) (blockno : ℕ) : Tool ℕ :=
  if blockno < S5_NDIRECT_BLOCKS then ino.getDirectBlockno blockno
  else do
    let ind ← ino.getIndirectBlockno
    if ind = 0 then return 0
    else (getBlock ind).getWord ((blockno - S5_NDIRECT_BLOCKS) * 4)

/-- The bytes of a disk block, zeros where the file is sparse. -/
def readBlock (blockno blockoff ammount : ℕ) : Tool (List UInt8) :=
  if blockno = 0 then return List.replicate ammount 0 else (getBlock blockno).read blockoff ammount

theorem ammount_pos {offset size : ℕ} (h : size ≠ 0) : 0 < min (S5_BLOCK_SIZE - offset % S5_BLOCK_SIZE) size := by
  have : offset % S5_BLOCK_SIZE < S5_BLOCK_SIZE := Nat.mod_lt _ (by decide)
  omega

/-- The loop of `read`. -/
def readLoop (ino : Inode) (offset size : ℕ) (res : List UInt8) : Tool (List UInt8) :=
  if size = 0 then return res
  else do
    let blockoff := offset % S5_BLOCK_SIZE
    let ammount := min (S5_BLOCK_SIZE - blockoff) size
    let blockno ← ino.readBlockno (offset / S5_BLOCK_SIZE)
    let data ← readBlock blockno blockoff ammount
    ino.readLoop (offset + ammount) (size - ammount) (res ++ data)
termination_by size
decreasing_by exact Nat.sub_lt (Nat.pos_of_ne_zero ‹_›) (ammount_pos ‹_›)

def read (ino : Inode) (offset : ℕ) (size : Option ℕ) : Tool (List UInt8) := do
  let whole ← ino.getSize
  let type ← ino.getType
  if type ≠ S5_TYPE_DATA ∧ type ≠ S5_TYPE_DIR then throw (.readType type)
  else ino.readLoop offset (min (size.getD whole) (min S5_MAX_FILE_SIZE whole - offset)) []

/-- The number of the disk block that `write` finds for block `blockloc` of the file, with an
indirect block where one is needed. -/
def writeBlockno (ino : Inode) (blockloc : ℕ) : Tool ℕ :=
  if blockloc < S5_NDIRECT_BLOCKS then ino.getDirectBlockno blockloc
  else do
    let ind ← ino.getIndirectBlockno
    if ind = 0 then do
      let indirect ← allocBlock
      indirect.zero
      ino.setIndirectBlockno indirect.blockno
      return 0
    else (getBlock ind).getWord ((blockloc - S5_NDIRECT_BLOCKS) * 4)

/-- The disk block that `write` makes for a sparse block of the file. -/
def newBlock (ino : Inode) (blockloc : ℕ) : Tool Block := do
  let block ← allocBlock
  block.zero
  if blockloc < S5_NDIRECT_BLOCKS then ino.setDirectBlockno blockloc block.blockno
  else do
    let ind ← ino.getIndirectBlockno
    (getBlock ind).setWord ((blockloc - S5_NDIRECT_BLOCKS) * 4) block.blockno
  return block

def writeBlock (ino : Inode) (blockloc : ℕ) : Tool Block := do
  let blockno ← ino.writeBlockno blockloc
  if blockno = 0 then ino.newBlock blockloc else return getBlock blockno

/-- The loop of `write`, with the offset behind the bytes written. -/
def writeLoop (ino : Inode) (data : List UInt8) (offset remaining : ℕ) : Tool ℕ :=
  if remaining = 0 then return offset
  else do
    let blockoff := offset % S5_BLOCK_SIZE
    let ammount := min (S5_BLOCK_SIZE - blockoff) remaining
    let block ← ino.writeBlock (offset / S5_BLOCK_SIZE)
    block.write blockoff ((data.drop (data.length - remaining)).take ammount)
    ino.writeLoop data (offset + ammount) (remaining - ammount)
termination_by remaining
decreasing_by exact Nat.sub_lt (Nat.pos_of_ne_zero ‹_›) (ammount_pos ‹_›)

def write (ino : Inode) (offset : ℕ) (data : List UInt8) : Tool Unit := do
  let type ← ino.getType
  if type ≠ S5_TYPE_DATA ∧ type ≠ S5_TYPE_DIR then throw (.writeType type)
  else if offset + data.length > S5_MAX_FILE_SIZE then throw (.maxFileSize (offset + data.length))
  else do
    let offset ← ino.writeLoop data offset data.length
    let size ← ino.getSize
    if offset > size then ino.setSize offset else return ()

end Inode

/-! ### The kernel -/

structure S5Super where
  magic : ℕ
  freeInode : ℕ
  nfree : ℕ
  freeBlocks : Fin 30 → ℕ
  rootInode : ℕ
  numInodes : ℕ
  version : ℕ

/-- The superblock in memory, and the pages of the block device as `pframe_get` gives them. -/
structure S5fs where
  super : S5Super
  page : ℕ → Fin 1024 → ℕ

/-- `s5_free_block`, `none` where it panics. -/
def s5FreeBlock (fs : S5fs) (blockno : ℕ) : Option S5fs :=
  let s := fs.super
  if h : S5_NBLKS_PER_FNODE > s.nfree then
    if S5_NBLKS_PER_FNODE - 1 = s.nfree then
      some {
        super := { s with nfree := 0, freeBlocks := Function.update s.freeBlocks 29 blockno }
        page := Function.update fs.page blockno fun i =>
          if hi : i.val < 30 then s.freeBlocks ⟨i, hi⟩ else fs.page blockno i }
    else
      some { fs with
        super := { s with nfree := s.nfree + 1, freeBlocks := Function.update s.freeBlocks ⟨s.nfree, h⟩ blockno } }
  else none

end Weenix.S5
