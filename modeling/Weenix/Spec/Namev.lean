import Weenix.Spec.Ramfs

/-! Path resolution, `fs/namev.c`, for a process with current directory `cwd`. The argument `base`
of the source is left out: no call reads it. A fixed buffer is the string it holds, with the
writes past its end made explicit. -/

namespace Weenix.Vfs

/-- `MAXPATHLEN` -/
def maxPathLen : ℕ := 1024

def oCreat : ℤ := 0x100

/-- A failed resolution: its error, and whether it has set the result pointer to null. If not, the
pointer is as the caller left it. -/
structure Failure where
  errno : Errno
  cleared : Bool

/-- Both special names go to the same place as any other. -/
def lookup (dir : VPtr) (name : CStr) : FsM (Except Errno VPtr) := do
  if (← deref dir).mode ≠ .dir then return .error .enotdir
  else ramfsLookup dir name

/-- The path as `final_path` holds it. -/
def finalPath (pathname : CStr) : CStr :=
  if pathname.head? ≠ some slash ∧ pathname.head? ≠ some dot then dot :: slash :: pathname else pathname

/-- `*name`: what follows the last slash. -/
def baseName (pathname : CStr) : CStr := (pathname.reverse.takeWhile (· ≠ slash)).reverse

/-- The path in `dup_path`, without its last component. The length is a `size_t`, so a name as long
as the path makes it wrap around. -/
def dupPath (fName : CStr) (namelen : ℕ) : CStr := fName.take ((fName.length + 2 ^ 32 - namelen - 1) % 2 ^ 32)

/-- The loop that leaves out a slash before a slash. -/
def compress : CStr → CStr
  | [] => []
  | c :: s => if c = slash ∧ s.head? = some slash then compress s else c :: compress s

/-- Copying a component to `search_name`, whose size is `NAME_LEN + 1`, and looking it up. -/
def lookupPiece (dir : VPtr) (piece : CStr) : FsM (Except Errno VPtr) :=
  if nameLen + 1 < piece.length then throw .wild
  else if nameLen < piece.length then return .error .enametoolong
  else lookup dir piece

/-- The loop of `dir_namev` over the bytes after `dup_path_ptr`; `seen` are those before the next
slash. It ends with the directory reached and the last component. -/
def walkLoop (dir : VPtr) (seen : CStr) : CStr → FsM (Except Errno (VPtr × CStr))
  | [] => return .ok (dir, seen)
  | c :: rest =>
    if c = slash then do
      match ← lookupPiece dir seen with
      | .error e => return .error e
      | .ok p =>
        vput p
        walkLoop p [] rest
    else walkLoop dir (seen ++ [c]) rest

/-- The directory to start from, and `f_name`. -/
def startDir (cwd : VPtr) (path : CStr) : FsM (Except Errno (VPtr × CStr)) :=
  if path.take 2 = [dot, slash] then return .ok (cwd, path.drop 1)
  else if path.take 3 = [dot, dot, slash] then do
    match ← lookup cwd [dot, dot] with
    | .error e => return .error e
    | .ok p => return .ok (p, path.drop 2)
  else return .ok (rootVn, path)

/-- `dir_namev` from a start directory on. -/
def dirNamevFrom (pathname : CStr) (currDir : VPtr) (fName : CStr) : FsM (Except Failure VPtr) :=
  let name := baseName pathname
  let dup := dupPath fName name.length
  if nameLen < name.length then return .error ⟨.enametoolong, true⟩
  else if dup = [] then do
    vref currDir
    return .ok currDir
  else do
    match ← walkLoop currDir [] (compress dup).tail with
    | .error e => return .error ⟨e, true⟩
    | .ok (dir, piece) =>
      let searchName := if pathname = [dot] ∨ pathname = [dot, dot] then pathname else piece
      return (← lookupPiece dir searchName).mapError (⟨·, true⟩)

/-- Only the parent directory is returned: the last component is `baseName pathname`. -/
def dirNamev (cwd : VPtr) (pathname : CStr) : FsM (Except Failure VPtr) :=
  if 1024 < pathname.length then return .error ⟨.enametoolong, true⟩
  else if maxPathLen ≤ (finalPath pathname).length then throw .wild
  else do
    match ← startDir cwd (finalPath pathname) with
    | .error e => return .error ⟨e, false⟩
    | .ok (currDir, fName) => dirNamevFrom pathname currDir fName

/-- `open_namev` with `O_CREAT`. For a path that begins with `./` or `../` the name is never set. -/
def openCreate (cwd : VPtr) (pathname : CStr) (memory : Bool) : FsM (Except Failure VPtr) :=
  if pathname.take 2 = [dot, slash] then do
    if (← deref cwd).mode ≠ .dir then return .error ⟨.enotdir, true⟩
    else throw .wild
  else if pathname.take 3 = [dot, dot, slash] then throw .wild
  else do
    match ← dirNamev cwd pathname with
    | .error e => return .error ⟨e.errno, false⟩
    | .ok dir =>
      vput dir
      if (← deref dir).mode ≠ .dir then return .error ⟨.enotdir, true⟩
      else
        match ← ramfsCreate dir (baseName pathname) memory with
        | .error _ => throw .wild
        | .ok vn =>
          vref vn
          return .ok vn

/-- `open_namev` without `O_CREAT`. The result of `dir_namev` is put before it is known whether
there is one. -/
def openLookup (cwd : VPtr) (pathname : CStr) : FsM (Except Failure VPtr) :=
  if pathname = [dot] ∨ pathname = [dot, dot] then do
    return (← lookup cwd pathname).mapError (⟨·, true⟩)
  else do
    match ← dirNamev cwd pathname with
    | .error e => throw (if e.cleared then .panic else .wild)
    | .ok dir =>
      vput dir
      return (← lookup dir (baseName pathname)).mapError (⟨·, true⟩)

/-- On success the source returns no value; what is in its register is the zero of `lookup`. -/
def openNamev (cwd : VPtr) (pathname : CStr) (flag : ℤ) (memory : Bool) : FsM (Except Failure VPtr) :=
  if maxPathLen < pathname.length then return .error ⟨.enametoolong, false⟩
  else if flag = oCreat then openCreate cwd pathname memory
  else openLookup cwd pathname

end Weenix.Vfs
