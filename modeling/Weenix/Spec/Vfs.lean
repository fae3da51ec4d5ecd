import Weenix.Spec.Namev

/-! The calls of the file system, `fs/vfs_syscall.c`, `fs/open.c` and `fs/file.c`, by processes with
their own descriptors and current directories. Calls that return an error return its negated number. -/

namespace Weenix.Vfs

open Function

/-! ### Calls on paths

These change no descriptor. -/

/-- What `do_mknod` and `do_mkdir` do in the parent directory. On success the new file is looked up
once more and the reference is kept. -/
def makeAt (dir : VPtr) (name : CStr) (make : FsM (Except Errno Unit)) : FsM ℤ := do
  let found ← lookup dir name
  vput dir
  match found with
  | .ok result =>
    vput result
    return -Errno.eexist.code
  | .error .enotdir => return -Errno.enotdir.code
  | .error _ =>
    match ← make with
    | .error e => return -e.code
    | .ok () =>
      let _ ← lookup dir name
      return 0

/-- `S_ISCHR(mode)` or `S_ISBLK(mode)` -/
def isSpecial (mode : ℕ) : Bool := (specialMem mode 0).isSome

/-- `memset` is called on a pointer that is not set; `stray` says whether what it overwrites is used. -/
def doMknod (cwd : VPtr) (path : CStr) (mode devid : ℕ) (memory stray : Bool) : FsM ℤ :=
  if ¬ isSpecial mode then return -Errno.einval.code
  else if maxPathLen < path.length then return -Errno.enametoolong.code
  else if stray then throw .wild
  else do
    match ← dirNamev cwd path with
    | .error e => return -e.errno.code
    | .ok dir => makeAt dir (baseName path) (ramfsMknod dir (baseName path) mode devid memory)

def doMkdir (cwd : VPtr) (path : CStr) (memory : Bool) : FsM ℤ := do
  match ← dirNamev cwd path with
  | .error e => return -e.errno.code
  | .ok dir => makeAt dir (baseName path) (ramfsMkdir dir (baseName path) memory)

/-- `do_rmdir` in the parent directory. -/
def rmdirAt (dir : VPtr) (name : CStr) : FsM ℤ := do
  let found ← lookup dir name
  vput dir
  match found with
  | .error e => return -e.code
  | .ok result =>
    if (← deref result).mode = .dir then do
      vput result
      match ← ramfsRmdir dir name with
      | .error e => return -e.code
      | .ok () => return 0
    else do
      vput result
      return -Errno.enotdir.code

def doRmdir (cwd : VPtr) (path : CStr) : FsM ℤ :=
  if path = [dot] then return -Errno.einval.code
  else if path = [dot, dot] then return -Errno.enotempty.code
  else do
    match ← dirNamev cwd path with
    | .error e => return -e.errno.code
    | .ok dir =>
      if baseName path = [dot] then return -Errno.einval.code
      else if baseName path = [dot, dot] then return -Errno.enotempty.code
      else rmdirAt dir (baseName path)

/-- `do_unlink` in the parent directory. -/
def unlinkAt (dir : VPtr) (name : CStr) : FsM ℤ := do
  match ← lookup dir name with
  | .error e =>
    vput dir
    return -e.code
  | .ok result =>
    if (← deref result).mode ≠ .dir then do
      let r ← ramfsUnlink dir name
      vput result
      vput dir
      match r with
      | .error e => return -e.code
      | .ok () => return 0
    else do
      vput dir
      vput result
      return -Errno.eisdir.code

def doUnlink (cwd : VPtr) (path : CStr) : FsM ℤ := do
  match ← dirNamev cwd path with
  | .error e => return -e.errno.code
  | .ok dir => unlinkAt dir (baseName path)

/-- `do_link` in the directory of the new name. The references to both vnodes are dropped before
the link is made. -/
def linkAt (old dir : VPtr) (name : CStr) : FsM ℤ := do
  match ← lookup dir name with
  | .ok result =>
    vput dir
    vput result
    return -Errno.eexist.code
  | .error _ =>
    vput dir
    match ← ramfsLink old dir name with
    | .error e => return -e.code
    | .ok () => return 0

def doLink (cwd : VPtr) (source target : CStr) : FsM ℤ := do
  match ← openNamev cwd source 0 false with
  | .error e => return -e.errno.code
  | .ok old =>
    vput old
    match ← dirNamev cwd target with
    | .error e => return -e.errno.code
    | .ok dir => linkAt old dir (baseName target)

def doRename (cwd : VPtr) (oldname newname : CStr) : FsM ℤ := do
  let _ ← doLink cwd oldname newname
  doUnlink cwd oldname

/-- The result, and the current directory afterwards. -/
def doChdir (cwd : VPtr) (path : CStr) : FsM (ℤ × VPtr) :=
  if path = [dot] then return (0, cwd)
  else if path = [dot, dot] then do
    match ← lookup cwd path with
    | .error e => return (-e.code, cwd)
    | .ok result =>
      vput cwd
      return (0, result)
  else do
    match ← dirNamev cwd path with
    | .error e => return (-e.errno.code, cwd)
    | .ok dir =>
      let found ← lookup dir (baseName path)
      vput dir
      match found with
      | .error e => return (-e.code, cwd)
      | .ok result =>
        if (← deref result).mode = .dir then do
          vput cwd
          return (0, result)
        else do
          vput result
          return (-Errno.enotdir.code, cwd)

/-- A special file asks the root directory's `stat`, which is the one of ramfs too. -/
def doStat (cwd : VPtr) (path : CStr) : FsM (ℤ × Option Stat) := do
  match ← openNamev cwd path 0 false with
  | .error e => return (-e.errno.code, none)
  | .ok res =>
    let stat ← ramfsStat res
    vput res
    return (0, some stat)

/-! ### Open files -/

/-- `NFILES` -/
def nFiles : ℕ := 32

/-- `file_t` -/
structure File where
  pos : ℤ
  mode : ℕ
  refcount : ℕ
  vnode : Option VPtr

structure Proc where
  /-- `p_files` -/
  files : ℕ → Option ℕ
  cwd : VPtr

structure World where
  fs : Fs
  /-- The `file_t`s in use, by address; memory that is freed is not used again. -/
  file : ℕ → Option File
  /-- The number of `file_t`s allocated so far. -/
  allocs : ℕ
  proc : ℕ → Proc

abbrev Sys := EStateM Stop World

def onFs {α : Type} (m : FsM α) : Sys α := fun w =>
  match m w.fs with
  | .ok a fs => .ok a { w with fs := fs }
  | .error e fs => .error e { w with fs := fs }

def World.setFile (w : World) (f : ℕ) (x : Option File) : World := { w with file := update w.file f x }

def World.setFd (w : World) (pid fd : ℕ) (f : Option ℕ) : World :=
  let p := w.proc pid
  { w with proc := update w.proc pid { p with files := update p.files fd f } }

def World.setCwd (w : World) (pid : ℕ) (p : VPtr) : World :=
  { w with proc := update w.proc pid { w.proc pid with cwd := p } }

/-- The file behind a pointer. -/
def fileAt (f : ℕ) : Sys File := fun w =>
  match w.file f with
  | some x => .ok x w
  | none => .error .wild w

def setFile (f : ℕ) (x : Option File) : Sys Unit := modify (World.setFile · f x)

def check (p : Prop) [Decidable p] : Sys Unit := if p then pure () else throw .panic

def fref (f : ℕ) : Sys Unit := do
  let x ← fileAt f
  check (x.mode < 8)
  check (-1 ≤ x.pos)
  check (x.refcount ≠ 0 → x.vnode ≠ none)
  setFile f (some { x with refcount := x.refcount + 1 })

/-- `fget(-1)`; `memory` says whether the allocation succeeds. -/
def fnew (memory : Bool) : Sys (Option ℕ) := do
  if memory then do
    let w ← get
    set { w.setFile w.allocs (some ⟨0, 0, 0, none⟩) with allocs := w.allocs + 1 }
    fref w.allocs
    return some w.allocs
  else return none

def dropVnode : Option VPtr → Sys Unit
  | some vn => onFs (vput vn)
  | none => pure ()

def fput (f : ℕ) : Sys Unit := do
  let x ← fileAt f
  check (x.mode < 8)
  check (-1 ≤ x.pos)
  check (0 < x.refcount)
  check (x.refcount ≠ 1 → x.vnode ≠ none)
  if x.refcount = 1 then do
    dropVnode x.vnode
    setFile f none
  else setFile f (some { x with refcount := x.refcount - 1 })

def getEmptyFd (pid : ℕ) : Sys ℤ := do
  let files := ((← get).proc pid).files
  match (List.range nFiles).find? fun fd => (files fd).isNone with
  | some fd => return fd
  | none => return -Errno.emfile.code

/-- `curproc->p_files[fd] = f`. The index `-EMFILE`, which `get_empty_fd` gives for a full table, is a word
of `p_comm`: what is stored there is not seen by any call. -/
def setFd (pid : ℕ) (fd : ℤ) (f : Option ℕ) : Sys Unit :=
  if fd = -Errno.emfile.code then pure ()
  else if fd < 0 ∨ nFiles ≤ fd then throw .wild
  else modify (World.setFd · pid fd.toNat f)

/-- How every call on a descriptor begins. The descriptor 32 passes the test; behind the table there
is the current directory, which is never null, but `fget` gives null for it. -/
inductive Fd
  | bad
  | beyond
  | file (f : ℕ)

def checkFd (pid : ℕ) (fd : ℤ) : Sys Fd := do
  if fd < 0 ∨ nFiles < fd then return .bad
  else if fd = nFiles then return .beyond
  else
    match ((← get).proc pid).files fd.toNat with
    | none => return .bad
    | some f => return .file f

/-- The vnode of an open file, and the file. -/
def fileVnode (f : ℕ) : Sys (File × VPtr × Vnode) := do
  let x ← fileAt f
  match x.vnode with
  | none => throw .wild
  | some vn => return (x, vn, ← onFs (deref vn))

/-- The `read` operation of a vnode. A byte device answers `driver`, if there is such a device. -/
def readOp (vn : VPtr) (mode : Mode) (offset : ℤ) (nbytes : ℕ) (driver : Option ℤ) : FsM (ℤ × List UInt8) :=
  match mode, driver with
  | .reg, _ => do
    let bytes ← ramfsRead vn offset nbytes
    return (bytes.length, bytes)
  | .chr, some count => return (count, [])
  | _, _ => throw .wild

def writeOp (vn : VPtr) (mode : Mode) (offset : ℤ) (buf : List UInt8) (driver : Option ℤ) : FsM ℤ :=
  match mode, driver with
  | .reg, _ => ramfsWrite vn offset buf
  | .chr, some count => return count
  | _, _ => throw .wild

/-- `do_read` on an open file. The two errors come back without `fput`. -/
def readFile (f nbytes : ℕ) (driver : Option ℤ) : Sys (ℤ × List UInt8) := do
  fref f
  let (x, vn, v) ← fileVnode f
  if v.mode = .dir then return (-Errno.eisdir.code, [])
  else if x.mode = 2 ∨ x.mode = 4 ∨ x.mode = 6 then return (-Errno.ebadf.code, [])
  else do
    let (count, bytes) ← onFs (readOp vn v.mode x.pos nbytes driver)
    setFile f (some { x with pos := toInt (x.pos + count) })
    fput f
    return (count, bytes)

def doRead (pid : ℕ) (fd : ℤ) (nbytes : ℕ) (driver : Option ℤ) : Sys (ℤ × List UInt8) := do
  match ← checkFd pid fd with
  | .bad => return (-Errno.ebadf.code, [])
  | .beyond => throw .wild
  | .file f => readFile f nbytes driver

/-- The position that `whence` asks for. -/
def seekPos (f : ℕ) (offset : ℤ) (whence : ℕ) : Sys (Option ℤ) :=
  match whence with
  | 0 => return some offset
  | 1 => do return some (toInt ((← fileAt f).pos + offset))
  | 2 => do return some (toInt (offset + (← fileVnode f).2.2.len))
  | _ => return none

/-- `do_lseek` on an open file. -/
def seekFile (f : ℕ) (offset : ℤ) (whence : ℕ) : Sys ℤ := do
  fref f
  fput f
  match ← seekPos f offset whence with
  | none => return -Errno.einval.code
  | some pos =>
    if pos < 0 then return -Errno.einval.code
    else do
      setFile f (some { (← fileAt f) with pos := pos })
      return pos

def doLseek (pid : ℕ) (fd offset : ℤ) (whence : ℕ) : Sys ℤ := do
  match ← checkFd pid fd with
  | .bad => return -Errno.ebadf.code
  | .beyond => throw .panic
  | .file f => seekFile f offset whence

/-- `f_mode & FMODE_APPEND` -/
def isAppend (mode : ℕ) : Bool := mode / 4 % 2 = 1

/-- The write itself. The position moves by the number of bytes asked for. -/
def writeAt (f : ℕ) (buf : List UInt8) (driver : Option ℤ) : Sys ℤ := do
  let (x, vn, v) ← fileVnode f
  let count ← onFs (writeOp vn v.mode x.pos buf driver)
  setFile f (some { x with pos := toInt (x.pos + buf.length) })
  fput f
  return count

/-- `do_write` on an open file. -/
def writeFile (pid : ℕ) (fd : ℤ) (f : ℕ) (buf : List UInt8) (driver : Option ℤ) : Sys ℤ := do
  fref f
  let (x, _, v) ← fileVnode f
  if v.mode = .dir then return -Errno.eisdir.code
  else if x.mode = 1 then return -Errno.ebadf.code
  else if isAppend x.mode then do
    let pos ← doLseek pid fd 0 2
    setFile f (some { (← fileAt f) with pos := pos })
    writeAt f buf driver
  else writeAt f buf driver

def doWrite (pid : ℕ) (fd : ℤ) (buf : List UInt8) (driver : Option ℤ) : Sys ℤ := do
  match ← checkFd pid fd with
  | .bad => return -Errno.ebadf.code
  | .beyond => throw .wild
  | .file f => writeFile pid fd f buf driver

def doClose (pid : ℕ) (fd : ℤ) : Sys ℤ := do
  match ← checkFd pid fd with
  | .bad => return -Errno.ebadf.code
  | .beyond => throw .wild
  | .file f =>
    setFd pid fd none
    fput f
    return 0

/-- A full table gives `-EMFILE`, which passes the test `new_fd > NFILES` and is returned. -/
def doDup (pid : ℕ) (fd : ℤ) : Sys ℤ := do
  match ← checkFd pid fd with
  | .bad => return -Errno.ebadf.code
  | .beyond => throw .panic
  | .file f =>
    fref f
    let newFd ← getEmptyFd pid
    setFd pid newFd (some f)
    return newFd

/-- The new descriptor, closed first if it is another one. -/
def dup2Slot (pid : ℕ) (ofd nfd : ℤ) (f : ℕ) : Sys Unit := do
  match ← checkFd pid nfd with
  | .beyond => throw .wild
  | .bad => setFd pid nfd (some f)
  | .file _ =>
    if nfd ≠ ofd then do
      let _ ← doClose pid nfd
      setFd pid nfd (some f)
    else setFd pid nfd (some f)

def doDup2 (pid : ℕ) (ofd nfd : ℤ) : Sys ℤ := do
  if ofd < 0 ∨ nFiles < ofd ∨ nfd < 0 ∨ nFiles < nfd then return -Errno.ebadf.code
  else
    match ← checkFd pid ofd with
    | .bad => return Errno.ebadf.code
    | .beyond => throw .wild
    | .file f =>
      dup2Slot pid ofd nfd f
      fref f
      return nfd

/-- `sizeof(dirent_t)` -/
def direntTSize : ℤ := 40

/-- `do_getdent` on an open file. -/
def getdentFile (f : ℕ) : Sys (ℤ × Option Dirent) := do
  fref f
  fput f
  let (x, vn, v) ← fileVnode f
  if v.mode ≠ .dir then return (-Errno.enotdir.code, none)
  else do
    let (ret, entry) ← onFs (ramfsReaddir vn x.pos)
    setFile f (some { x with pos := toInt (x.pos + ret) })
    return (if 0 < ret then direntTSize else 0, entry)

def doGetdent (pid : ℕ) (fd : ℤ) : Sys (ℤ × Option Dirent) := do
  match ← checkFd pid fd with
  | .bad => return (-Errno.ebadf.code, none)
  | .beyond => throw .panic
  | .file f => getdentFile f

/-! ### Opening -/

/-- The flag handed to `open_namev`. -/
def openFlag (oflags : ℤ) : ℤ :=
  if oflags = 0x100 ∨ oflags = 0x101 ∨ oflags = 0x102 ∨ oflags = 0x501 ∨ oflags = 0x502 then oCreat else oflags

/-- The `f_mode` that `oflags` asks for; the other values leave it as it is. -/
def fileMode (oflags : ℤ) : Option ℕ :=
  if oflags = 0 ∨ oflags = 0x100 then some 1
  else if oflags = 1 ∨ oflags = 0x101 then some 2
  else if oflags = 0x401 ∨ oflags = 0x501 then some 6
  else if oflags = 2 ∨ oflags = 0x102 then some 3
  else if oflags = 0x402 ∨ oflags = 0x502 then some 7
  else none

/-- The end of `do_open`, once the path has been resolved. -/
def openFile (pid : ℕ) (newFd : ℤ) (f : Option ℕ) (oflags : ℤ) (vn : VPtr) : Sys ℤ := do
  if (← onFs (deref vn)).mode = .dir ∧ (oflags = 1 ∨ oflags = 2) then do
    setFd pid newFd none
    onFs (vput vn)
    return -Errno.eisdir.code
  else
    match f with
    | none => throw .wild
    | some f =>
      let x ← fileAt f
      setFile f (some { x with vnode := some vn, mode := (fileMode oflags).getD x.mode })
      return newFd

/-- What the rest of the kernel does in a call: whether an inode and a `file_t` can be allocated,
what a byte device answers, whether the stray write of `do_mknod` does harm, and what the variable
`res_vnode` of `do_open` holds before it is set. -/
structure Env where
  memory : Bool
  fileMemory : Bool
  driver : Option ℤ
  stray : Bool
  resVnode : Option VPtr

/-- What `res_vnode` holds behind an `open_namev` that has failed. -/
def Env.leftVnode (env : Env) (e : Failure) : Option VPtr := if e.cleared then none else env.resVnode

/-- `fget` of the new descriptor gives null, as the descriptor is free or none; the file is the new one. A failing
`open_namev` may leave `res_vnode` as it is, and what it holds is put unless it is null. -/
def doOpen (pid : ℕ) (filename : CStr) (oflags : ℤ) (env : Env) : Sys ℤ := do
  if (oflags - 3).tmod 2 = 0 ∧ 0 ≤ oflags - 3 then return Errno.einval.code
  else do
    let f ← fnew env.fileMemory
    let newFd ← getEmptyFd pid
    setFd pid newFd f
    let cwd := ((← get).proc pid).cwd
    match ← onFs (openNamev cwd filename (openFlag oflags) env.memory) with
    | .error e =>
      setFd pid newFd none
      dropVnode (env.leftVnode e)
      return -e.errno.code
    | .ok vn => openFile pid newFd f oflags vn

/-! ### All calls -/

inductive Syscall
  | openPath (path : CStr) (oflags : ℤ)
  | read (fd : ℤ) (nbytes : ℕ)
  | write (fd : ℤ) (buf : List UInt8)
  | close (fd : ℤ)
  | dup (fd : ℤ)
  | dup2 (ofd nfd : ℤ)
  | getdent (fd : ℤ)
  | lseek (fd offset : ℤ) (whence : ℕ)
  | mknod (path : CStr) (mode devid : ℕ)
  | mkdir (path : CStr)
  | rmdir (path : CStr)
  | unlink (path : CStr)
  | link (source target : CStr)
  | rename (oldname newname : CStr)
  | chdir (path : CStr)
  | stat (path : CStr)

/-- A call on paths, with the current directory of the process. -/
def onCwd {α : Type} (pid : ℕ) (m : VPtr → FsM α) : Sys α := do
  let w ← get
  onFs (m (w.proc pid).cwd)

def chdirProc (pid : ℕ) (path : CStr) : Sys ℤ := do
  let (ret, cwd) ← onCwd pid (doChdir · path)
  modify (World.setCwd · pid cwd)
  return ret

/-- The number a call returns. -/
def Syscall.exec (pid : ℕ) (env : Env) : Syscall → Sys ℤ
  | openPath path oflags => doOpen pid path oflags env
  | read fd nbytes => do return (← doRead pid fd nbytes env.driver).1
  | write fd buf => doWrite pid fd buf env.driver
  | close fd => doClose pid fd
  | dup fd => doDup pid fd
  | dup2 ofd nfd => doDup2 pid ofd nfd
  | getdent fd => do return (← doGetdent pid fd).1
  | lseek fd offset whence => doLseek pid fd offset whence
  | mknod path mode devid => onCwd pid (doMknod · path mode devid env.memory env.stray)
  | mkdir path => onCwd pid (doMkdir · path env.memory)
  | rmdir path => onCwd pid (doRmdir · path)
  | unlink path => onCwd pid (doUnlink · path)
  | link source target => onCwd pid (doLink · source target)
  | rename oldname newname => onCwd pid (doRename · oldname newname)
  | chdir path => chdirProc pid path
  | stat path => do return (← onCwd pid (doStat · path)).1

end Weenix.Vfs
