import Weenix.Lib.Memory

/-! The arguments of a program on its stack: `_elf32_calc_argsize` and `_elf32_load_args` of
`api/elf32.c`. Sizes and addresses are 32-bit numbers. The kernel buffer is addressed by
offsets, and a write that does not lie in its `argsize` bytes is a fault. -/

namespace Weenix.Elf

open Memory

def AT_NULL : UInt32 := 0

def AT_PHDR : UInt32 := 3

/-- A string, without the zero that ends it. -/
abbrev CString := { l : List UInt8 // 0 ∉ l }

/-- An entry of the auxiliary vector, other than the one that ends it. -/
structure Auxv where
  aType : UInt32
  aUn : UInt32
  entry : aType ≠ AT_NULL

inductive Fault where
  | overrun
  deriving DecidableEq

/-- The loops of `_elf32_calc_argsize` over `argv` and `envp`. -/
def addStrings : List CString → ℕ → ℕ
  | [], size => size
  | s :: l, size => addStrings l ((size + (s.1.length + 1)) % 2 ^ 32)

/-- The loop of `_elf32_calc_argsize` over `auxv`. -/
def addTables (phtsize : ℕ) : List Auxv → ℕ → ℕ
  | [], size => size
  | e :: l, size => addTables phtsize l (if e.aType = AT_PHDR then (size + phtsize) % 2 ^ 32 else size)

/-- `_elf32_calc_argsize`: the size, and the numbers of entries of the three vectors. -/
def calcArgsize (argv envp : List CString) (auxv : List Auxv) (phtsize : ℕ) : ℕ × ℕ × ℕ × ℕ :=
  let size := addStrings argv 0
  let argc := argv.length
  let size := (size + (argc + 1) * 4) % 2 ^ 32
  let size := addStrings envp size
  let envc := envp.length
  let size := (size + (envc + 1) * 4) % 2 ^ 32
  let size := addTables phtsize auxv size
  let auxc := auxv.length
  let size := (size + (auxc + 1) * 8) % 2 ^ 32
  let size := (size + 4) % 2 ^ 32
  let size := (size + 3 * 4) % 2 ^ 32
  (size, argc, envc, auxc)

/-- `strcpy` or `memcpy` into the buffer. -/
def put (argsize : ℕ) (m : Mem) (off : ℕ) (data : List UInt8) : Except Fault Mem :=
  if off + data.length ≤ argsize then .ok (writeBytes m off data) else .error .overrun

def putWord (argsize : ℕ) (m : Mem) (off v : ℕ) : Except Fault Mem :=
  if off + 4 ≤ argsize then .ok (write32 m off v) else .error .overrun

/-- The places in the buffer for the next entry of a vector and for the next string, and the
address that the latter will have. -/
structure Cursors where
  vecstart : ℕ
  strstart : ℕ
  vstrstart : ℕ

section
variable (argsize : ℕ)

/-- The loops of `_elf32_load_args` over `argv` and `envp`. -/
def copyStrings : List CString → Cursors → Mem → Except Fault (Cursors × Mem)
  | [], c, m => .ok (c, m)
  | s :: l, c, m => do
    let len := s.1.length + 1
    let m ← put argsize m c.strstart (s.1 ++ [0])
    let m ← putWord argsize m c.vecstart c.vstrstart
    copyStrings l ⟨c.vecstart + 4, c.strstart + len, (c.vstrstart + len) % 2 ^ 32⟩ m

/-- The null pointer at the end of `argv` and `envp`. -/
def endStrings (c : Cursors) (m : Mem) : Except Fault (Cursors × Mem) := do
  let m ← putWord argsize m c.vecstart 0
  return ({ c with vecstart := c.vecstart + 4 }, m)

/-- The loop of `_elf32_load_args` over `auxv`; `kmem` is the memory of the kernel. -/
def copyAuxv (kmem : Mem) (phtsize : ℕ) : List Auxv → Cursors → Mem → Except Fault (Cursors × Mem)
  | [], c, m => .ok (c, m)
  | e :: l, c, m => do
    let m ← putWord argsize m c.vecstart e.aType.toNat
    let m ← putWord argsize m (c.vecstart + 4) e.aUn.toNat
    let m ← if e.aType = AT_PHDR then do
        -- `strstart` stays where it is
        let m ← put argsize m c.strstart (bytes kmem e.aUn.toNat phtsize)
        putWord argsize m (c.vecstart + 4) c.vstrstart
      else pure m
    copyAuxv kmem phtsize l { c with vecstart := c.vecstart + 8 } m

/-- The part of `_elf32_load_args` that fills the buffer. -/
def fillArgs (arglow : ℕ) (kmem buf : Mem) (argv envp : List CString) (auxv : List Auxv)
    (argc envc auxc phtsize : ℕ) : Except Fault Mem := do
  let m ← putWord argsize buf 0 argc
  let veclen := ((argc + 1 + envc + 1) * 4 + (auxc + 1) * 8) % 2 ^ 32
  let vecstart := 4 + 3 * 4
  let vvecstart := (arglow + 4 + 3 * 4) % 2 ^ 32
  let strstart := vecstart + veclen
  let vstrstart := (vvecstart + veclen) % 2 ^ 32
  let m ← putWord argsize m 4 vvecstart
  let m ← putWord argsize m 8 ((vvecstart + (argc + 1) * 4) % 2 ^ 32)
  let m ← putWord argsize m 12 ((vvecstart + (argc + 1 + envc + 1) * 4) % 2 ^ 32)
  let (c, m) ← copyStrings argsize argv ⟨vecstart, strstart, vstrstart⟩ m
  let (c, m) ← endStrings argsize c m
  let (c, m) ← copyStrings argsize envp c m
  let (c, m) ← endStrings argsize c m
  let (c, m) ← copyAuxv argsize kmem phtsize auxv c m
  -- only the type of the last entry is written
  putWord argsize m c.vecstart AT_NULL.toNat

end

/-- `vmmap_write` into memory that is mapped. -/
def vmmapWrite (user : Mem) (vaddr : ℕ) (buf : Mem) (count : ℕ) : Mem := fun a =>
  if vaddr ≤ a ∧ a < vaddr + count then buf (a - vaddr) else user a

/-- `_elf32_load_args`: the memory of the program afterwards. -/
def loadArgs (user : Mem) (arglow argsize : ℕ) (kmem buf : Mem) (argv envp : List CString)
    (auxv : List Auxv) (argc envc auxc phtsize : ℕ) : Except Fault Mem := do
  let buf ← fillArgs argsize arglow kmem buf argv envp auxv argc envc auxc phtsize
  return vmmapWrite user arglow buf argsize

/-- The two functions as `_elf32_load` calls them. -/
def argsOnStack (user : Mem) (arglow : ℕ) (kmem buf : Mem) (argv envp : List CString) (auxv : List Auxv)
    (phtsize : ℕ) : Except Fault Mem :=
  let (argsize, argc, envc, auxc) := calcArgsize argv envp auxv phtsize
  loadArgs user arglow argsize kmem buf argv envp auxv argc envc auxc phtsize

end Weenix.Elf
