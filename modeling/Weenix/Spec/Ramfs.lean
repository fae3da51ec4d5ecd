import Mathlib.Tactic

/-! The in-memory file system, `fs/ramfs/ramfs.c`, and the reference counts of its vnodes,
`fs/vnode.c`. Nothing here blocks, so a call runs from its start to its end. -/

namespace Weenix.Vfs

open Function

/-- A C string, by its bytes before the zero at its end. -/
abbrev CStr := List UInt8

def slash : UInt8 := 47

def dot : UInt8 := 46

inductive Errno
  | enoent
  | ebadf
  | eexist
  | enotdir
  | eisdir
  | einval
  | emfile
  | enospc
  | enametoolong
  | enotempty
  deriving DecidableEq

def Errno.code : Errno → ℤ
  | enoent => 2
  | ebadf => 9
  | eexist => 17
  | enotdir => 20
  | eisdir => 21
  | einval => 22
  | emfile => 24
  | enospc => 28
  | enametoolong => 36
  | enotempty => 39

/-- Why a call does not come back. -/
inductive Stop
  /-- A failed `KASSERT`, or a call of `panic`. -/
  | panic
  /-- A use of memory that is freed, out of bounds or not initialised, or a call of a null pointer. -/
  | wild
  deriving DecidableEq

def pageSize : ℕ := 4096

/-- `NAME_LEN` -/
def nameLen : ℕ := 28

/-- `RAMFS_MAX_FILES` -/
def maxFiles : ℕ := 64

/-- `sizeof(ramfs_dirent_t)` -/
def direntSize : ℤ := 32

/-- `RAMFS_MAX_DIRENT` -/
def maxDirent : ℕ := 128

/-- `ramfs_dirent_t`; a free entry has the empty name. -/
structure Dirent where
  ino : ℕ
  name : CStr
  deriving DecidableEq

/-- `vn_mode`: `S_IFREG`, `S_IFDIR`, `S_IFCHR` or `S_IFBLK`. -/
inductive Mode
  | reg
  | dir
  | chr
  | blk
  deriving DecidableEq

/-- `rf_mem`, under the type of file that `rf_mode` gives. -/
inductive Mem
  | data (page : ℕ → UInt8)
  | dir (entry : ℕ → Dirent)
  | chr (devid : ℕ)
  | blk (devid : ℕ)

def Mem.mode : Mem → Mode
  | data _ => .reg
  | dir _ => .dir
  | chr _ => .chr
  | blk _ => .blk

/-- `ramfs_inode_t` -/
structure Inode where
  size : ℤ
  ino : ℕ
  mem : Mem
  linkcount : ℤ

/-- `vnode_t`. Memory that is freed is not used again, so `id` tells a vnode from those that had
its inode number before it. -/
structure Vnode where
  id : ℕ
  refcount : ℕ
  mode : Mode
  len : ℤ

/-- `vnode_t *` -/
structure VPtr where
  vno : ℕ
  id : ℕ
  deriving DecidableEq

structure Fs where
  /-- `rfs_inodes` -/
  inodes : ℕ → Option Inode
  /-- `vnode_inuse_list`, by inode number. -/
  vnodes : ℕ → Option Vnode
  /-- The number of vnodes allocated so far. -/
  allocs : ℕ

abbrev FsM := EStateM Stop Fs

def kassert (p : Prop) [Decidable p] : FsM Unit := if p then pure () else throw .panic

def Fs.setInode (fs : Fs) (n : ℕ) (i : Option Inode) : Fs := { fs with inodes := update fs.inodes n i }

def Fs.setVnode (fs : Fs) (n : ℕ) (v : Option Vnode) : Fs := { fs with vnodes := update fs.vnodes n v }

def Fs.deref (fs : Fs) (p : VPtr) : Option Vnode := (fs.vnodes p.vno).filter (·.id = p.id)

/-- What is behind a pointer, if the pointer may be used. -/
def need {α : Type} (f : Fs → Option α) : FsM α := fun fs =>
  match f fs with
  | some a => .ok a fs
  | none => .error .wild fs

def deref (p : VPtr) : FsM Vnode := need fun fs => fs.deref p

/-- `VNODE_TO_RAMFSINODE` -/
def Fs.inodeOf (fs : Fs) (p : VPtr) : Option Inode := (fs.deref p).bind fun _ => fs.inodes p.vno

def inodeOf (p : VPtr) : FsM Inode := need fun fs => fs.inodeOf p

def Mem.entries : Mem → Option (ℕ → Dirent)
  | dir entry => some entry
  | _ => none

/-- `VNODE_TO_DIRENT`. The directory operations of any other file are null pointers. -/
def dirents (p : VPtr) : FsM (ℕ → Dirent) := need fun fs => (fs.inodeOf p).bind (·.mem.entries)

def setInode (n : ℕ) (i : Option Inode) : FsM Unit := modify (Fs.setInode · n i)

def setVnode (n : ℕ) (v : Option Vnode) : FsM Unit := modify (Fs.setVnode · n v)

def ramfsReadVnode (vno : ℕ) : FsM Vnode := do
  match (← get).inodes vno with
  | none => throw .panic
  | some inode =>
    kassert (inode.ino = vno)
    setInode vno (some { inode with linkcount := inode.linkcount + 1 })
    return { id := (← get).allocs, refcount := 1, mode := inode.mem.mode, len := inode.size }

def ramfsDeleteVnode (p : VPtr) : FsM Unit := do
  let inode ← inodeOf p
  if inode.linkcount - 1 = 0 then setInode p.vno none
  else setInode p.vno (some { inode with linkcount := inode.linkcount - 1 })

def vref (p : VPtr) : FsM Unit := do
  let v ← deref p
  kassert (0 < v.refcount)
  setVnode p.vno (some { v with refcount := v.refcount + 1 })

def vget (vno : ℕ) : FsM VPtr := do
  match (← get).vnodes vno with
  | some v =>
    vref ⟨vno, v.id⟩
    return ⟨vno, v.id⟩
  | none =>
    let v ← ramfsReadVnode vno
    setVnode vno (some v)
    modify fun fs => { fs with allocs := fs.allocs + 1 }
    return ⟨vno, v.id⟩

/-- No pages are cached, so that `query_vnode` decides nothing here. -/
def vput (p : VPtr) : FsM Unit := do
  let v ← deref p
  kassert (0 < v.refcount)
  if 1 < v.refcount then setVnode p.vno (some { v with refcount := v.refcount - 1 })
  else do
    ramfsDeleteVnode p
    setVnode p.vno none

/-- `memory` says whether `kmalloc` and `page_alloc` succeed. -/
def ramfsAllocInode (mem : Mem) (memory : Bool) : FsM (Option ℕ) := do
  let fs ← get
  match (List.range maxFiles).find? fun i => (fs.inodes i).isNone with
  | none => return none
  | some i =>
    if memory then do
      setInode i (some { size := 0, ino := i, mem := mem, linkcount := 1 })
      return some i
    else return none

/-- `name_match`, and the loop over the entries for it. The length that goes with a name is always
its own. -/
def findEntry (entry : ℕ → Dirent) (name : CStr) : Option ℕ :=
  (List.range maxDirent).find? fun i => (entry i).name = name

def ramfsLookup (dir : VPtr) (name : CStr) : FsM (Except Errno VPtr) := do
  let entry ← dirents dir
  match findEntry entry name with
  | some i => return .ok (← vget (entry i).ino)
  | none => return .error .enoent

/-- How every call that adds a name begins: the name must be new; then the first free entry is
taken. -/
def freeEntry (dir : VPtr) (name : CStr) : FsM (Option ℕ) := do
  match ← ramfsLookup dir name with
  | .ok _ => throw .panic
  | .error _ => return findEntry (← dirents dir) []

/-- The name is cut to `NAME_LEN - 1` bytes. -/
def setEntry (dir : VPtr) (i ino : ℕ) (name : CStr) : FsM Unit := do
  let entry ← dirents dir
  let inode ← inodeOf dir
  setInode dir.vno (some { inode with
    mem := .dir (update entry i ⟨ino, name.take (nameLen - 1)⟩), size := inode.size + direntSize })

/-- The first entry of that name becomes free; it keeps its inode number. -/
def clearEntry (dir : VPtr) (name : CStr) : FsM Unit := do
  let entry ← dirents dir
  let inode ← inodeOf dir
  let entry' := match findEntry entry name with
    | some i => update entry i ⟨(entry i).ino, []⟩
    | none => entry
  setInode dir.vno (some { inode with mem := .dir entry', size := inode.size - direntSize })

def addLinks (p : VPtr) (k : ℤ) : FsM Unit := do
  let inode ← inodeOf p
  setInode p.vno (some { inode with linkcount := inode.linkcount + k })

/-- What the calls that make a file share: they take the first free entry and the first free inode. -/
def newFile {α : Type} (dir : VPtr) (name : CStr) (mem : Mem) (memory : Bool) (finish : ℕ → ℕ → FsM α) :
    FsM (Except Errno α) := do
  match ← freeEntry dir name with
  | none => return .error .enospc
  | some i =>
    match ← ramfsAllocInode mem memory with
    | none => return .error .enospc
    | some ino => return .ok (← finish i ino)

def ramfsCreate (dir : VPtr) (name : CStr) (memory : Bool) : FsM (Except Errno VPtr) :=
  newFile dir name (.data fun _ => 0) memory fun i ino => do
    let vn ← vget ino
    setEntry dir i ino name
    return vn

/-- What `mode` asks `ramfs_mknod` for: `S_IFCHR` and `S_IFBLK`, whatever the permission bits. -/
def specialMem (mode devid : ℕ) : Option Mem :=
  if mode / 256 % 256 = 1 then some (.chr devid)
  else if mode / 256 % 256 = 4 then some (.blk devid)
  else none

def ramfsMknod (dir : VPtr) (name : CStr) (mode devid : ℕ) (memory : Bool) : FsM (Except Errno Unit) :=
  match specialMem mode devid with
  | some mem => newFile dir name mem memory fun i ino => setEntry dir i ino name
  | none => do
    match ← freeEntry dir name with
    | none => return .error .enospc
    | some _ => throw .panic

def ramfsLink (oldvnode dir : VPtr) (name : CStr) : FsM (Except Errno Unit) := do
  let _ ← deref oldvnode
  match ← freeEntry dir name with
  | none => return .error .enospc
  | some i =>
    setEntry dir i oldvnode.vno name
    addLinks oldvnode 1
    return .ok ()

def ramfsUnlink (dir : VPtr) (name : CStr) : FsM (Except Errno Unit) := do
  match ← ramfsLookup dir name with
  | .error _ => throw .panic
  | .ok vn =>
    kassert ((← deref vn).mode ≠ .dir)
    clearEntry dir name
    addLinks vn (-1)
    vput vn
    return .ok ()

/-- The entries of a new directory. -/
def dotEntries (self parent : ℕ) : ℕ → Dirent
  | 0 => ⟨self, [dot]⟩
  | 1 => ⟨parent, [dot, dot]⟩
  | _ => ⟨0, []⟩

/-- A page of zeros, as entries. -/
def noEntries : ℕ → Dirent := fun _ => ⟨0, []⟩

def ramfsMkdir (dir : VPtr) (name : CStr) (memory : Bool) : FsM (Except Errno Unit) :=
  newFile dir name (.dir noEntries) memory fun i ino => do
    setEntry dir i ino name
    setInode ino (some { size := 2 * direntSize, ino := ino, mem := .dir (dotEntries ino dir.vno), linkcount := 1 })

/-- No entry is in use but `.` and `..`. -/
def dirEmpty (entry : ℕ → Dirent) : Bool :=
  (List.range maxDirent).all fun i =>
    (entry i).name = [dot] || (entry i).name = [dot, dot] || (entry i).name = []

/-- `ramfs_rmdir` once the name has been looked up. -/
def rmdirFound (dir vn : VPtr) (name : CStr) : FsM (Except Errno Unit) := do
  if (← deref vn).mode ≠ .dir then do
    vput vn
    return .error .enotdir
  else if dirEmpty (← dirents vn) then do
    clearEntry dir name
    addLinks vn (-1)
    vput vn
    return .ok ()
  else do
    vput vn
    return .error .enotempty

def ramfsRmdir (dir : VPtr) (name : CStr) : FsM (Except Errno Unit) := do
  kassert (name ≠ [dot] ∧ name ≠ [dot, dot])
  match ← ramfsLookup dir name with
  | .error e => return .error e
  | .ok vn => rmdirFound dir vn name

/-- The value of a 32-bit `int` after a conversion or a sum. -/
def toInt (x : ℤ) : ℤ := Int.bmod x (2 ^ 32)

/-- The bytes copied; the call returns their number. -/
def ramfsRead (file : VPtr) (offset : ℤ) (count : ℕ) : FsM (List UInt8) := do
  let inode ← inodeOf file
  kassert ((← deref file).mode ≠ .dir)
  match inode.mem with
  | .data page =>
    let ret := max 0 (min (toInt count) (inode.size - offset))
    if 0 < ret ∧ ¬ (0 ≤ offset ∧ offset + ret ≤ pageSize) then throw .wild
    else return (List.range ret.toNat).map fun i => page (offset.toNat + i)
  | _ => throw .wild

/-- `memcpy` to an offset of the page. -/
def copyIn (page : ℕ → UInt8) (offset : ℕ) (bytes : List UInt8) : ℕ → UInt8 := fun i =>
  if offset ≤ i then (bytes[i - offset]?).getD (page i) else page i

/-- A negative length is a huge one for `memcpy`. -/
def ramfsWrite (file : VPtr) (offset : ℤ) (buf : List UInt8) : FsM ℤ := do
  let inode ← inodeOf file
  let v ← deref file
  kassert (v.mode ≠ .dir)
  match inode.mem with
  | .data page =>
    let ret := min (toInt buf.length) (pageSize - offset)
    if ret < 0 ∨ offset < 0 then throw .wild
    else do
      kassert (v.len = inode.size)
      setVnode file.vno (some { v with len := max v.len (offset + ret) })
      setInode file.vno (some { inode with
        mem := .data (copyIn page offset.toNat (buf.take ret.toNat)), size := max v.len (offset + ret) })
      return ret
  | _ => throw .wild

/-- How far the position moves, and the entry read: `d_ino` and `d_name`. -/
def ramfsReaddir (dir : VPtr) (offset : ℤ) : FsM (ℤ × Option Dirent) := do
  kassert ((← deref dir).mode = .dir)
  kassert (offset % direntSize = 0)
  let entry ← dirents dir
  if offset < 0 then throw .wild
  else
    match (List.range maxDirent).find? fun (j : ℕ) => offset ≤ j * direntSize ∧ (entry j).name ≠ [] with
    | some j => return (direntSize + (j * direntSize - offset), some (entry j))
    | none => return (0, none)

/-- `struct stat`, but for the fields that are always zero or constant. -/
structure Stat where
  mode : Mode
  ino : ℕ
  rdev : ℕ
  nlink : ℤ
  size : ℤ

def ramfsStat (file : VPtr) : FsM Stat := do
  let inode ← inodeOf file
  let v ← deref file
  let rdev := match inode.mem with
    | .chr devid => devid
    | .blk devid => devid
    | _ => 0
  return { mode := v.mode, ino := file.vno, rdev := rdev, nlink := inode.linkcount - 1, size := inode.size }

def ramfsMount (memory : Bool) : FsM (Except Errno VPtr) := do
  match ← ramfsAllocInode (.dir noEntries) memory with
  | none => return .error .enospc
  | some ino =>
    kassert (0 = ino)
    setInode 0 (some { size := 2 * direntSize, ino := 0, mem := .dir (dotEntries 0 0), linkcount := 1 })
    return .ok (← vget 0)

def Fs.empty : Fs := ⟨fun _ => none, fun _ => none, 0⟩

/-- The file system after `ramfs_mount`: the root directory, whose vnode the mount holds. -/
def mounted : Fs where
  inodes := update (fun _ => none) 0
    (some { size := 2 * direntSize, ino := 0, mem := .dir (dotEntries 0 0), linkcount := 2 })
  vnodes := update (fun _ => none) 0 (some { id := 0, refcount := 1, mode := .dir, len := 2 * direntSize })
  allocs := 1

/-- `vfs_root_vn` -/
def rootVn : VPtr := ⟨0, 0⟩

end Weenix.Vfs
