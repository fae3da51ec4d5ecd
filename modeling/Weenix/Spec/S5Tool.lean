import Weenix.Spec.S5fs

/-! What the tool `tools/fsmaker/api.py` does with inodes, directories and whole images: the rest of
`Inode` and `Simdisk`. A name is a string of bytes. -/

namespace Weenix.S5

open ByteFile

def S5_MAGIC : ℕ := 0x727f
def S5_CURRENT_VERSION : ℕ := 3

/-! ### The superblock -/

def setMagic (val : ℕ) : Tool Unit := setWord 0 val

def getFreeInode : Tool ℕ := getWord 4

def setFreeInode (val : ℕ) : Tool Unit := setWord 4 val

def setNumInodes (val : ℕ) : Tool Unit := setWord (16 + 4 * S5_NBLKS_PER_FNODE) val

def setVersion (val : ℕ) : Tool Unit := setWord (20 + 4 * S5_NBLKS_PER_FNODE) val

/-! ### Inodes -/

def packHalf (v : ℕ) : Tool (List UInt8) := if v < 65536 then pure (packedHalf v) else throw .struct

def allocInode : Tool Inode := do
  let first ← getFreeInode
  if first = S5_NULL then throw .outOfInodes
  else do
    let first ← getFreeInode
    let inode ← getInode first
    let next ← inode.getSize
    setFreeInode next
    return inode

namespace Inode

def setNextFree (ino : Inode) (val : ℕ) : Tool Unit := ino.setSize val

def getNumber (ino : Inode) : Tool ℕ := getWord (ino.offset + 4)

def setNumber (ino : Inode) (val : ℕ) : Tool Unit := setWord (ino.offset + 4) val

def setType (ino : Inode) (val : ℕ) : Tool Unit := do
  let data ← packHalf val
  simWrite (ino.offset + 8) data

/-- The link count is of the format `h`, which has a sign. -/
def setLinkCount (ino : Inode) (val : ℤ) : Tool Unit :=
  if -32768 ≤ val ∧ val < 32768 then simWrite (ino.offset + 10) (packedHalf (val % 65536).toNat) else throw .struct

/-! ### Directories -/

/-- `split('\0', 1)[0]` -/
def beforeNull (s : List UInt8) : List UInt8 := s.takeWhile (· ≠ 0)

/-- `xrange(0, size, S5_DIRENT_SIZE)` -/
def direntOffsets (size : ℕ) : List ℕ :=
  (List.range ((size + S5_DIRENT_SIZE - 1) / S5_DIRENT_SIZE)).map (S5_DIRENT_SIZE * ·)

/-- The loop of `_make_dirent`. An entry is taken for empty if the new name is. -/
def makeLoop (ino : Inode) (name : List UInt8) : List ℕ → Option ℕ → Tool (Option ℕ)
  | [], empty => return empty
  | i :: l, empty => do
    let entry ← ino.read (i + 4) (some S5_NAME_LEN)
    if beforeNull entry = name then throw (.sameName name)
    else makeLoop ino name l (if name.length = 0 then some i else empty)

/-- `ljust(S5_NAME_LEN, '\0')` -/
def padded (name : List UInt8) : List UInt8 := name ++ List.replicate (S5_NAME_LEN - name.length) 0

def makeDirent (ino : Inode) (inode : ℕ) (name : List UInt8) : Tool Unit := do
  let type ← ino.getType
  if type ≠ S5_TYPE_DIR then throw (.createType type)
  else do
    let size ← ino.getSize
    if size % S5_DIRENT_SIZE ≠ 0 then throw (.createSize size)
    else if name.length ≥ S5_NAME_LEN then throw (.nameLong name)
    else do
      let empty ← makeLoop ino name (direntOffsets size) none
      match empty with
      | some i => do
        let data ← pack inode
        ino.write i data
        ino.write (i + 4) (padded name)
      | none => do
        let size ← ino.getSize
        let data ← pack inode
        ino.write size data
        let size ← ino.getSize
        ino.write size (padded name)

/-- The names `.` and `..`. -/
def dot : List UInt8 := [46]
def dotdot : List UInt8 := [46, 46]

end Inode

/-! ### Formatting -/

/-- The loop of `format` over the inodes, which leaves the last one. -/
def formatInodes (inodes : ℕ) : Tool Inode :=
  (List.range inodes).foldlM (fun _ i => do
    let inode ← getInode i
    inode.setNumber i
    inode.setType S5_TYPE_FREE
    inode.setNextFree (i + 1)
    return inode) ⟨0, 0⟩

/-- The loop of `format` over the blocks, with the number of entries in the superblock. -/
def formatBlocks : List ℕ → ℕ → Tool ℕ
  | [], i => return i
  | num :: nums, i =>
    if i = S5_NBLKS_PER_FNODE - 1 then do
      let block := getBlock num
      (List.range (S5_NBLKS_PER_FNODE - 1)).forM fun j => do
        let entry ← getFreeBlock j
        block.setWord (j * 4) entry
      let last ← getLastFreeBlock
      block.setWord ((S5_NBLKS_PER_FNODE - 1) * 4) last
      setLastFreeBlock num
      formatBlocks nums 0
    else do
      setFreeBlock i num
      formatBlocks nums (i + 1)

/-- The number of blocks that `format` counts for the inodes. -/
def iblocks (inodes : ℕ) : ℕ := (inodes - 1) / S5_INODES_PER_BLOCK + 1

/-- `format` behind its checks, up to the root directory. -/
def formatTables (pos size inodes blocks : ℕ) : Tool Unit := do
  modify fun f => f.truncate pos
  simWrite size []
  setMagic S5_MAGIC
  setVersion S5_CURRENT_VERSION
  setNumInodes inodes
  let inode ← formatInodes inodes
  inode.setNextFree S5_NULL
  setFreeInode 0
  setLastFreeBlock S5_NULL
  let i ← formatBlocks (List.range' (iblocks inodes) (blocks - iblocks inodes)) 0
  setNfree i

def formatRoot : Tool Unit := do
  let root ← allocInode
  (List.range S5_NDIRECT_BLOCKS).forM fun i => root.setDirectBlockno i 0
  root.setIndirectBlockno 0
  root.setType S5_TYPE_DIR
  root.setSize 0
  root.setLinkCount 1
  let number ← root.getNumber
  root.makeDirent number Inode.dot
  let number ← root.getNumber
  root.makeDirent number Inode.dotdot
  root.setLinkCount 1

/-- `pos` is the position of the file when `format` is called. -/
def format (pos : ℕ) (inodes size : ℤ) : Tool Unit :=
  if inodes < 1 then throw (.formatInodes inodes)
  else if size % S5_BLOCK_SIZE ≠ 0 then throw (.formatSize size)
  else do
    let blocks := size / S5_BLOCK_SIZE
    let ib := iblocks inodes.toNat
    if blocks ≤ ib + 1 then throw (.formatSpace size inodes ((1 + ib) * S5_BLOCK_SIZE))
    else do
      formatTables pos size.toNat inodes.toNat blocks.toNat
      formatRoot

end Weenix.S5
