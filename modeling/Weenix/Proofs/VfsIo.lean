import Weenix.Lib.ByteFile
import Weenix.Proofs.VfsFile

/-! Reading, writing and seeking on descriptors of regular files, against files that are byte
strings of at most a page and open files with one position each. -/

namespace Weenix.Vfs

open Function Exec List

/-! ### The reference -/

/-- An open file of the reference. -/
structure Opened where
  ino : ℕ
  pos : ℕ
  mode : ℕ

structure Io where
  desc : ℕ → ℤ → Option ℕ
  opened : ℕ → Opened
  bytes : ℕ → ByteFile

/-- A read, a write or a seek, with the arguments the C types allow. -/
inductive IoCall
  | read (pid : ℕ) (fd : ℤ) (nbytes : UInt32)
  | write (pid : ℕ) (fd : ℤ) (buf : List UInt8) (h : buf.length < 2 ^ 32)
  | lseek (pid : ℕ) (fd : ℤ) (offset : Int32) (whence : ℕ)

def IoCall.exec : IoCall → Sys (ℤ × List UInt8)
  | read pid fd nbytes => doRead pid fd nbytes.toNat none
  | write pid fd buf _ => do return (← doWrite pid fd buf none, [])
  | lseek pid fd offset whence => do return (← doLseek pid fd offset.toInt whence, [])

namespace Io

variable (a : Io) (f : ℕ)

def moveTo (pos : ℕ) : Io := { a with opened := update a.opened f { a.opened f with pos := pos } }

def content : ByteFile := a.bytes (a.opened f).ino

def Readable : Prop := (a.opened f).mode % 2 = 1

def Writable : Prop := (a.opened f).mode / 2 % 2 = 1

instance : Decidable (a.Readable f) := inferInstanceAs (Decidable (_ = _))

instance : Decidable (a.Writable f) := inferInstanceAs (Decidable (_ = _))

/-- The bytes between the position and the end of file, at most `n` of them. -/
def read (n : ℕ) : (ℤ × List UInt8) × Io :=
  if a.Readable f then
    let data := (a.content f).read (a.opened f).pos n
    ((data.length, data), a.moveTo f ((a.opened f).pos + data.length))
  else ((-Errno.ebadf.code, []), a)

/-- Where a write begins: at the end of file if the file was opened for append. -/
def start : ℕ := if isAppend (a.opened f).mode then (a.content f).size else (a.opened f).pos

/-- As many bytes as fit on the page. -/
def write (buf : List UInt8) : (ℤ × List UInt8) × Io :=
  if a.Writable f then
    let data := buf.take (pageSize - a.start f)
    ((data.length, []),
      { a.moveTo f (a.start f + data.length) with
        bytes := update a.bytes (a.opened f).ino ((a.content f).write (a.start f) data) })
  else ((-Errno.ebadf.code, []), a)

def target (offset : ℤ) : ℕ → Option ℤ
  | 0 => some offset
  | 1 => some ((a.opened f).pos + offset)
  | 2 => some (offset + (a.content f).size)
  | _ => none

def lseek (offset : ℤ) (whence : ℕ) : (ℤ × List UInt8) × Io :=
  match a.target f offset whence with
  | some pos => if 0 ≤ pos ∧ pos < 2 ^ 31 then ((pos, []), a.moveTo f pos.toNat) else ((-Errno.einval.code, []), a)
  | none => ((-Errno.einval.code, []), a)

/-- What a call does on an open file; anything else is no descriptor. -/
def onFile (fd : Option ℕ) (g : ℕ → (ℤ × List UInt8) × Io) : (ℤ × List UInt8) × Io :=
  match fd with
  | some f => g f
  | none => ((-Errno.ebadf.code, []), a)

def step : IoCall → (ℤ × List UInt8) × Io
  | .read pid fd nbytes => a.onFile (a.desc pid fd) fun f => a.read f nbytes.toNat
  | .write pid fd buf _ => a.onFile (a.desc pid fd) fun f => a.write f buf
  | .lseek pid fd offset whence => a.onFile (a.desc pid fd) fun f => a.lseek f offset.toInt whence

end Io

/-! ### What the world shows of it -/

/-- An open regular file: its position, its mode and its bytes. -/
structure Shown (fs : Fs) (b : ByteFile) (o : Opened) (x : File) (vn : VPtr) (v : Vnode) (i : Inode) : Prop where
  vnode : x.vnode = some vn
  deref : fs.deref vn = some v
  regular : v.mode = .reg
  inode : fs.inodes vn.vno = some i
  mem : i.mem = .data b.byte
  size : i.size = b.size
  len : v.len = b.size
  bound : b.size ≤ pageSize
  ino : o.ino = vn.vno
  pos : x.pos = o.pos
  pos_lt : o.pos < 2 ^ 31
  mode : x.mode = o.mode
  modes : o.mode ∈ ([0, 1, 2, 3, 6, 7] : List ℕ)
  refcount : 0 < x.refcount

/-- Every descriptor is one of an open regular file, in a mode that `do_open` sets. -/
structure Shows (w : World) (a : Io) : Prop where
  desc : ∀ pid fd, w.desc pid fd = a.desc pid fd
  file : ∀ {pid fd f}, a.desc pid fd = some f →
    ∃ x vn v i, w.file f = some x ∧ Shown w.fs (a.content f) (a.opened f) x vn v i

theorem toInt_of_lt {x : ℤ} (h : -2 ^ 31 ≤ x) (h' : x < 2 ^ 31) : toInt x = x := by
  unfold toInt
  rw [Int.bmod_def]
  split <;> omega

theorem toInt_neg {x : ℤ} (h : 2 ^ 31 ≤ x) (h' : x < 2 ^ 32) : toInt x = x - 2 ^ 32 := by
  unfold toInt
  rw [Int.bmod_def]
  split <;> omega

section Files

variable {w : World} {a : Io} {f : ℕ} {x : File} {vn : VPtr} {v : Vnode} {i : Inode} {b : ByteFile} {o : Opened}

theorem Shown.sane {fs : Fs} (h : Shown fs b o x vn v i) : x.Sane := by
  have hm := h.modes
  simp only [mem_cons, not_mem_nil, or_false] at hm
  refine ⟨?_, ?_⟩
  · rw [h.mode]
    omega
  · rw [h.pos]
    omega

theorem Shown.not_dir {fs : Fs} (h : Shown fs b o x vn v i) : v.mode ≠ .dir := by
  rw [h.regular]
  decide

/-- How `ramfs_read` and `ramfs_write` begin. -/
theorem Shown.found {fs : Fs} (h : Shown fs b o x vn v i) : inodeOf vn fs = .ok i fs ∧ Vfs.deref vn fs = .ok v fs ∧
    kassert (v.mode ≠ .dir) fs = .ok () fs :=
  ⟨need_ok.2 ⟨Fs.inodeOf_some.2 ⟨⟨v, Fs.deref_some.1 h.deref⟩, h.inode⟩, rfl⟩, need_ok.2 ⟨h.deref, rfl⟩,
    kassert_ok.2 ⟨h.not_dir, rfl⟩⟩

/-- The position and the count of an open file change; nothing else does. -/
theorem Shows.setFile (h : Shows w a) (hx : w.file f = some x) (pos n : ℕ) (hpos : pos < 2 ^ 31) (hn : 0 < n) :
    Shows (w.setFile f (some { x with pos := pos, refcount := n })) (a.moveTo f pos) := by
  refine ⟨h.desc, fun {pid fd f'} hfd => ?_⟩
  obtain ⟨x', vn, v, i, hx', hs⟩ := h.file hfd
  by_cases hf : f' = f
  · subst hf
    obtain rfl : x = x' := Option.some.inj (hx.symm.trans hx')
    refine ⟨{ x with pos := pos, refcount := n }, vn, v, i, by simp [World.setFile], ?_⟩
    have ho : (a.moveTo f' pos).opened f' = { a.opened f' with pos := pos } := by simp [Io.moveTo]
    have hc : (a.moveTo f' pos).content f' = a.content f' := by simp [Io.content, ho]; rfl
    rw [hc, ho]
    exact ⟨hs.vnode, hs.deref, hs.regular, hs.inode, hs.mem, hs.size, hs.len, hs.bound, hs.ino, rfl, hpos, hs.mode,
      hs.modes, hn⟩
  · have ho : (a.moveTo f pos).opened f' = a.opened f' := by simp [Io.moveTo, hf]
    have hc : (a.moveTo f pos).content f' = a.content f' := by simp [Io.content, ho]; rfl
    rw [hc, ho]
    exact ⟨x', vn, v, i, by simpa [World.setFile, hf] using hx', hs⟩

theorem Shows.fref (h : Shows w a) (hx : w.file f = some x) (hs : Shown w.fs (a.content f) (a.opened f) x vn v i) :
    Shows (w.setFile f (some { x with refcount := x.refcount + 1 })) a := by
  have hkept := h.setFile hx (a.opened f).pos (x.refcount + 1) hs.pos_lt (Nat.succ_pos _)
  rwa [show a.moveTo f (a.opened f).pos = a by simp [Io.moveTo], ← hs.pos] at hkept

theorem setFile_self (hx : w.file f = some x) : w.setFile f (some x) = w := by
  unfold World.setFile
  rw [← hx, update_eq_self]

theorem setFile_setFile (w : World) (f : ℕ) (y z : Option File) : (w.setFile f y).setFile f z = w.setFile f z := by
  simp [World.setFile]

theorem fput_back {y : File} (hs : y.Sane) (hv : y.vnode ≠ none) (hr : 1 < y.refcount) :
    fput f (w.setFile f (some y)) = .ok () (w.setFile f (some { y with refcount := y.refcount - 1 })) := by
  refine fput_ok.2 ⟨y, by simp [World.setFile], hs, by omega, fun _ => hv, .inl ⟨by omega, ?_⟩⟩
  rw [setFile_setFile]

theorem fileVnode_shown (hs : Shown w.fs b o x vn v i) (n : ℕ) :
    fileVnode f (w.setFile f (some { x with refcount := n })) =
      .ok ({ x with refcount := n }, vn, v) (w.setFile f (some { x with refcount := n })) :=
  fileVnode_ok.2 ⟨by simp [World.setFile], hs.vnode, hs.deref, rfl⟩

/-! ### Reading -/

theorem ramfsRead_shown {fs : Fs} (hs : Shown fs b o x vn v i) (n : ℕ) :
    ramfsRead vn x.pos n fs = .ok (b.read o.pos (toInt n).toNat) fs := by
  obtain ⟨hino, hd, hk⟩ := hs.found
  have hb : (b.size : ℤ) ≤ pageSize := by exact_mod_cast hs.bound
  unfold ramfsRead
  simp only [bind_ok _ hino, bind_ok _ hd, bind_ok _ hk, hs.mem, hs.size, hs.pos]
  generalize toInt n = t
  have hret : max 0 (min t ((b.size : ℤ) - o.pos)) = (min t.toNat (b.size - o.pos) : ℕ) := by omega
  have hin : ¬ (0 < max 0 (min t ((b.size : ℤ) - o.pos)) ∧
      ¬ (0 ≤ (o.pos : ℤ) ∧ (o.pos : ℤ) + max 0 (min t ((b.size : ℤ) - o.pos)) ≤ pageSize)) := by
    rintro ⟨h0, h⟩
    exact h ⟨by omega, by omega⟩
  rw [if_neg hin, hret, Int.toNat_natCast, Int.toNat_natCast, pure_ok_iff]
  exact ⟨rfl, rfl⟩

theorem readOp_shown {fs : Fs} (hs : Shown fs b o x vn v i) (n : ℕ) :
    readOp vn v.mode x.pos n none fs = .ok ((b.read o.pos (toInt n).toNat).length, b.read o.pos (toInt n).toNat) fs := by
  rw [hs.regular]
  exact bind_ok_iff.2 ⟨_, fs, ramfsRead_shown hs n, rfl⟩

theorem length_read_le (b : ByteFile) (pos n : ℕ) : (b.read pos n).length ≤ b.size - pos := by
  rw [ByteFile.read, length_map, length_range]
  omega

section
variable (hx : w.file f = some x) (hs : Shown w.fs b o x vn v i)
include hx hs

/-- Taking a reference to an open file. -/
theorem fref_shown : fref f w = .ok () (w.setFile f (some { x with refcount := x.refcount + 1 })) :=
  fref_ok.2 ⟨x, hx, hs.sane, fun _ => by rw [hs.vnode]; simp, rfl⟩

/-- `fref` and `fput`, one after the other. -/
theorem fput_fref : fput f (w.setFile f (some { x with refcount := x.refcount + 1 })) = .ok () w := by
  have hr := hs.refcount
  have hput := fput_back (w := w) (f := f) (y := { x with refcount := x.refcount + 1 }) ⟨hs.sane.mode, hs.sane.pos⟩
    (by rw [hs.vnode]; simp) (by simp only; omega)
  simp only [Nat.add_sub_cancel, setFile_self hx] at hput
  exact hput

/-- A read in a mode that the test lets pass. -/
theorem readFile_shown (n : ℕ)
    (hm : ¬ (x.mode = 2 ∨ x.mode = 4 ∨ x.mode = 6)) : readFile f n none w =
      .ok ((b.read o.pos (toInt n).toNat).length, b.read o.pos (toInt n).toNat)
        (w.setFile f (some { x with pos := ((o.pos + (b.read o.pos (toInt n).toNat).length : ℕ) : ℤ) })) := by
  have hop := readOp_shown hs n
  have hlen := length_read_le b o.pos (toInt n).toNat
  generalize b.read o.pos (toInt n).toNat = data at hop hlen ⊢
  have hpos : toInt (x.pos + data.length) = ((o.pos + data.length : ℕ) : ℤ) := by
    have h1 := hs.pos_lt
    have h2 : b.size ≤ 4096 := hs.bound
    rw [hs.pos, toInt_of_lt (by omega) (by omega)]
    rfl
  refine bind_ok_iff.2 ⟨_, _, fref_shown hx hs, ?_⟩
  refine bind_ok_iff.2 ⟨_, _, fileVnode_shown hs _, ?_⟩
  simp only [if_neg hs.not_dir, if_neg hm]
  refine bind_ok_iff.2 ⟨_, _, onFs_ok.2 ⟨w.fs, hop, rfl⟩, ?_⟩
  refine bind_ok_iff.2 ⟨(), _, setFile_ok.2 rfl, ?_⟩
  simp only [hpos]
  refine bind_ok_iff.2 ⟨(), _, fput_back ⟨hs.sane.mode, by simp only; omega⟩ ?_ ?_, ?_⟩
  · rw [hs.vnode]
    simp
  · have := hs.refcount
    show 1 < x.refcount + 1
    omega
  · rw [pure_ok_iff]
    exact ⟨rfl, setFile_setFile _ _ _ _⟩

/-- A read in a mode that the test rejects; the reference taken stays. -/
theorem readFile_denied (n : ℕ) (hm : x.mode = 2 ∨ x.mode = 4 ∨ x.mode = 6) : readFile f n none w =
      .ok (-Errno.ebadf.code, []) (w.setFile f (some { x with refcount := x.refcount + 1 })) := by
  refine bind_ok_iff.2 ⟨_, _, fref_shown hx hs, ?_⟩
  refine bind_ok_iff.2 ⟨_, _, fileVnode_shown hs _, ?_⟩
  simp only [if_neg hs.not_dir, if_pos hm]
  rfl

/-- A write that the test rejects; the reference taken stays. -/
theorem writeFile_denied {pid : ℕ} {fd : ℤ} (hm : x.mode = 1) (buf : List UInt8) : writeFile pid fd f buf none w =
      .ok (-Errno.ebadf.code) (w.setFile f (some { x with refcount := x.refcount + 1 })) := by
  unfold writeFile
  rw [bind_ok _ (fref_shown hx hs), bind_ok _ (fileVnode_shown hs _)]
  simp only [if_neg hs.not_dir, if_pos hm]
  rfl

/-- A seek, once the position is known. -/
theorem seekFile_eq {offset : ℤ} {whence : ℕ} {p : Option ℤ} (hp : seekPos f offset whence w = .ok p w) :
    seekFile f offset whence w = p.elim (.ok (-Errno.einval.code) w) fun pos =>
      if pos < 0 then .ok (-Errno.einval.code) w else .ok pos (w.setFile f (some { x with pos := pos })) := by
  unfold seekFile
  rw [bind_ok _ (fref_shown hx hs), bind_ok _ (fput_fref hx hs), bind_ok _ hp]
  cases p with
  | none => rfl
  | some pos =>
    simp only [Option.elim]
    split
    · rfl
    rw [bind_ok _ (fileAt_ok.2 ⟨hx, rfl⟩)]
    rfl

end

/-! ### Seeking -/

/-- The position that `seek_pos` computes: the one asked for, as an `int`. -/
theorem seekPos_shown (hx : w.file f = some x) (hs : Shown w.fs (a.content f) (a.opened f) x vn v i) (offset : ℤ)
    (ho : -2 ^ 31 ≤ offset) (ho' : offset < 2 ^ 31) (whence : ℕ) :
    seekPos f offset whence w = .ok ((a.target f offset whence).map toInt) w := by
  match whence with
  | 0 =>
    simp only [Io.target, Option.map_some, toInt_of_lt ho ho']
    rfl
  | 1 =>
    refine bind_ok_iff.2 ⟨x, w, fileAt_ok.2 ⟨hx, rfl⟩, ?_⟩
    rw [hs.pos]
    rfl
  | 2 =>
    refine bind_ok_iff.2 ⟨(x, vn, v), w, fileVnode_ok.2 ⟨hx, hs.vnode, hs.deref, rfl⟩, ?_⟩
    simp only [hs.len]
    rfl
  | _ + 3 => rfl

theorem target_bounds (hs : Shown w.fs (a.content f) (a.opened f) x vn v i) {offset pos : ℤ}
    (ho : -2 ^ 31 ≤ offset) (ho' : offset < 2 ^ 31) {whence : ℕ} (h : a.target f offset whence = some pos) :
    -2 ^ 31 ≤ pos ∧ pos < 2 ^ 32 := by
  have h1 := hs.pos_lt
  have h2 : (a.content f).size ≤ 4096 := hs.bound
  match whence with
  | 0 | 1 | 2 =>
    cases h
    omega
  | _ + 3 => cases h

/-- A seek does what the reference does. -/
theorem seekFile_shown (h : Shows w a) (hx : w.file f = some x)
    (hs : Shown w.fs (a.content f) (a.opened f) x vn v i) {offset : ℤ}
    (ho : -2 ^ 31 ≤ offset) (ho' : offset < 2 ^ 31) (whence : ℕ) : ∃ w',
      seekFile f offset whence w = .ok (a.lseek f offset whence).1.1 w' ∧ Shows w' (a.lseek f offset whence).2 := by
  have hp := seekPos_shown hx hs _ ho ho' whence
  unfold Io.lseek
  cases ht : a.target f offset whence with
  | none =>
    rw [ht] at hp
    exact ⟨w, seekFile_eq hx hs hp, h⟩
  | some pos =>
    rw [ht] at hp
    obtain ⟨hlo, hhi⟩ := target_bounds hs ho ho' ht
    rw [seekFile_eq hx hs hp]
    simp only [Option.map_some, Option.elim]
    by_cases hr : 0 ≤ pos ∧ pos < 2 ^ 31
    · rw [toInt_of_lt hlo hr.2, if_neg (not_lt.2 hr.1), if_pos hr]
      refine ⟨_, rfl, ?_⟩
      have hmoved := h.setFile hx pos.toNat x.refcount (by omega) hs.refcount
      rwa [Int.toNat_of_nonneg hr.1] at hmoved
    have hneg : toInt pos < 0 := by
      by_cases h0 : pos < 0
      · rw [toInt_of_lt hlo (by omega)]
        exact h0
      · rw [toInt_neg (by omega) hhi]
        omega
    rw [if_pos hneg, if_neg hr]
    exact ⟨w, rfl, h⟩

/-! ### Writing -/

theorem copyIn_write (b : ByteFile) (pos : ℕ) (data : List UInt8) :
    copyIn b.byte pos data = (b.write pos data).byte := by
  funext k
  by_cases hk : pos ≤ k ∧ k < pos + data.length
  · rw [ByteFile.byte_write_inside hk.1 hk.2, copyIn, if_pos hk.1, getD_eq_getElem?_getD,
      List.getElem?_eq_getElem (by omega)]
    rfl
  rw [ByteFile.byte_write_outside (by omega)]
  unfold copyIn
  split
  · rw [List.getElem?_eq_none (by omega)]
    rfl
  · rfl

def Fs.written (fs : Fs) (vn : VPtr) (v : Vnode) (i : Inode) (b : ByteFile) (pos : ℕ) (r : ℤ) (buf : List UInt8) : Fs :=
  (fs.setVnode vn.vno (some { v with len := max b.size (pos + r) })).setInode vn.vno
    (some { i with mem := .data (b.write pos (buf.take r.toNat)).byte, size := max b.size (pos + r) })

theorem ramfsWrite_ok {fs fs' : Fs} (hs : Shown fs b o x vn v i) {buf : List UInt8} {r : ℤ} :
    ramfsWrite vn x.pos buf fs = .ok r fs' ↔ 0 ≤ toInt buf.length ∧ o.pos ≤ pageSize ∧
      min (toInt buf.length) (pageSize - o.pos) = r ∧ fs.written vn v i b o.pos r buf = fs' := by
  obtain ⟨hino, hd, hk⟩ := hs.found
  have hlen : kassert (v.len = i.size) fs = .ok () fs := kassert_ok.2 ⟨by rw [hs.len, hs.size], rfl⟩
  unfold ramfsWrite
  simp only [bind_ok _ hino, bind_ok _ hd, bind_ok _ hk, hs.mem, hs.pos]
  generalize toInt buf.length = t
  have hpage : (o.pos ≤ pageSize) ↔ (o.pos : ℤ) ≤ pageSize := by exact_mod_cast Iff.rfl
  by_cases hneg : min t ((pageSize : ℤ) - o.pos) < 0 ∨ (o.pos : ℤ) < 0
  · rw [if_pos hneg, throw_ok_iff, hpage]
    constructor
    · exact False.elim
    rintro ⟨h0, h1, -⟩
    omega
  rw [if_neg hneg, bind_ok _ hlen, hpage]
  simp only [bind_ok_iff, setVnode, setInode, modify_ok_iff, pure_ok_iff, hs.len, copyIn_write,
    Int.toNat_natCast]
  constructor
  · rintro ⟨_, _, rfl, _, _, rfl, rfl, rfl⟩
    exact ⟨by omega, by omega, rfl, rfl⟩
  · rintro ⟨-, -, rfl, rfl⟩
    exact ⟨(), _, rfl, (), _, rfl, rfl, rfl⟩

/-- Dropping a reference that is not the last, at another position. -/
theorem fput_moved (hs : Shown w.fs b o x vn v i) (hr : 1 < x.refcount) {pos : ℤ} {w1 w2 : World} {u : Unit} :
    fput f (w1.setFile f (some { x with pos := pos })) = .ok u w2 ↔
      -1 ≤ pos ∧ w1.setFile f (some { x with pos := pos, refcount := x.refcount - 1 }) = w2 := by
  rw [fput_ok]
  constructor
  · rintro ⟨y, hy, hsane, -, -, h⟩
    simp only [World.setFile, update_self, Option.some.injEq] at hy
    subst hy
    rcases h with ⟨-, h⟩ | ⟨h, -⟩
    · rw [setFile_setFile] at h
      exact ⟨hsane.pos, h⟩
    · exact absurd h (by simp only; omega)
  · rintro ⟨hpos, rfl⟩
    refine ⟨_, update_self .., ⟨hs.sane.mode, hpos⟩, by simp only; omega, fun _ => ?_, .inl ⟨?_, ?_⟩⟩
    · rw [hs.vnode]
      simp
    · simp only
      omega
    · rw [setFile_setFile]

/-- The file is one reference above its own count, taken by `fref`. -/
theorem writeAt_ok (hx : w.file f = some x) (hs : Shown w.fs b o x vn v i) (hr : 1 < x.refcount)
    {buf : List UInt8} {r : ℤ} {w' : World} : writeAt f buf none w = .ok r w' ↔
      0 ≤ toInt buf.length ∧ o.pos ≤ pageSize ∧ min (toInt buf.length) (pageSize - o.pos) = r ∧
      -1 ≤ toInt (o.pos + buf.length) ∧
      { w with fs := w.fs.written vn v i b o.pos r buf }.setFile f
        (some { x with pos := toInt (o.pos + buf.length), refcount := x.refcount - 1 }) = w' := by
  have hvnode : fileVnode f w = .ok (x, vn, v) w := fileVnode_ok.2 ⟨hx, hs.vnode, hs.deref, rfl⟩
  unfold writeAt
  rw [bind_ok _ hvnode]
  simp only [bind_ok_iff, onFs_ok, hs.regular, setFile_ok, pure_ok_iff]
  constructor
  · rintro ⟨_, _, ⟨fs, hop, rfl⟩, _, _, rfl, _, _, hp, rfl, rfl⟩
    obtain ⟨h0, h1, rfl, rfl⟩ := (ramfsWrite_ok hs).1 hop
    rw [hs.pos] at hp
    obtain ⟨hpos, rfl⟩ := (fput_moved hs hr).1 hp
    exact ⟨h0, h1, rfl, hpos, rfl⟩
  · rintro ⟨h0, h1, rfl, hpos, rfl⟩
    refine ⟨_, _, ⟨_, (ramfsWrite_ok hs).2 ⟨h0, h1, rfl, rfl⟩, rfl⟩, (), _, rfl, (), _, ?_, rfl, rfl⟩
    rw [hs.pos]
    exact (fput_moved hs hr).2 ⟨hpos, rfl⟩

theorem checkFd_file {pid : ℕ} {fd : ℤ} (h : w.desc pid fd = some f) : checkFd pid fd w = .ok (.file f) w :=
  checkFd_ok.2 ⟨.inr (.inr ⟨f, rfl, h⟩), rfl⟩

/-- The write begins at the end of file in a file opened for append. -/
theorem writeFile_steps (h : Shows w a) (hx : w.file f = some x)
    (hs : Shown w.fs (a.content f) (a.opened f) x vn v i) {pid : ℕ} {fd : ℤ} (hfd : a.desc pid fd = some f)
    (hm : x.mode ≠ 1) (buf : List UInt8) : writeFile pid fd f buf none w =
      writeAt f buf none (w.setFile f (some { x with pos := a.start f, refcount := x.refcount + 1 })) := by
  unfold writeFile
  rw [bind_ok _ (fref_shown hx hs), bind_ok _ (fileVnode_shown hs _)]
  simp only [if_neg hs.not_dir, if_neg hm]
  have hmode : isAppend x.mode = isAppend (a.opened f).mode := by rw [hs.mode]
  by_cases happ : isAppend x.mode = true
  · set w1 := w.setFile f (some { x with refcount := x.refcount + 1 })
    have hx1 : w1.file f = some { x with refcount := x.refcount + 1 } := by simp [w1, World.setFile]
    have hs1 : Shown w1.fs (a.content f) (a.opened f) { x with refcount := x.refcount + 1 } vn v i :=
      { hs with refcount := Nat.succ_pos _ }
    have hseek : doLseek pid fd 0 2 w1 =
        .ok (a.content f).size (w1.setFile f (some { x with pos := (a.content f).size, refcount := x.refcount + 1 })) := by
      have hd : w1.desc pid fd = some f := (h.desc pid fd).trans hfd
      have hb : (a.content f).size ≤ 4096 := hs.bound
      have hp := seekPos_shown hx1 hs1 0 (by norm_num) (by norm_num) 2
      unfold doLseek
      rw [bind_ok _ (checkFd_file hd)]
      simp only [Io.target, Option.map_some, zero_add, toInt_of_lt (x := (a.content f).size) (by omega) (by omega)] at hp
      simp only
      rw [seekFile_eq hx1 hs1 hp, Option.elim_some, if_neg (by omega)]
    rw [if_pos happ, bind_ok _ hseek]
    rw [hmode] at happ
    rw [Io.start, if_pos happ]
    simp only [w1, setFile_setFile]
    rw [bind_ok _ (fileAt_ok.2 ⟨update_self .., rfl⟩)]
    rw [bind_ok _ (setFile_ok (u := ()).2 rfl), setFile_setFile]
  · rw [if_neg happ]
    rw [hmode] at happ
    rw [Io.start, if_neg happ, hs.pos]

theorem start_lt (hs : Shown w.fs (a.content f) (a.opened f) x vn v i) : a.start f < 2 ^ 31 := by
  have h1 := hs.pos_lt
  have h2 : (a.content f).size ≤ 4096 := hs.bound
  unfold Io.start
  split <;> omega

/-- A write in a mode that the test lets pass. -/
theorem writeFile_ok (h : Shows w a) (hx : w.file f = some x)
    (hs : Shown w.fs (a.content f) (a.opened f) x vn v i) {pid : ℕ} {fd : ℤ} (hfd : a.desc pid fd = some f)
    (hm : x.mode ≠ 1) {buf : List UInt8} {r : ℤ} {w' : World} : writeFile pid fd f buf none w = .ok r w' ↔
      0 ≤ toInt buf.length ∧ a.start f ≤ pageSize ∧ min (toInt buf.length) (pageSize - a.start f) = r ∧
      -1 ≤ toInt (a.start f + buf.length) ∧
      { w with fs := w.fs.written vn v i (a.content f) (a.start f) r buf }.setFile f
        (some { x with pos := toInt (a.start f + buf.length) }) = w' := by
  have hs1 : Shown w.fs (a.content f) { a.opened f with pos := a.start f }
      { x with pos := a.start f, refcount := x.refcount + 1 } vn v i :=
    { hs with pos := rfl, pos_lt := start_lt hs, refcount := Nat.succ_pos _ }
  have hr : 1 < x.refcount + 1 := by have := hs.refcount; omega
  rw [writeFile_steps h hx hs hfd hm, writeAt_ok (w := w.setFile f (some _)) (update_self ..) hs1 hr]
  simp only [World.setFile, update_idem, Nat.add_sub_cancel]

/-- The size after a write of all bytes, as the reference has it. -/
theorem size_write_all {pos : ℕ} {buf : List UInt8} (he : buf = [] → pos ≤ b.size) :
    max b.size (pos + buf.length) = (b.write pos buf).size := by
  by_cases hbuf : buf = []
  · rw [ByteFile.size_write_inside]
    · have := he hbuf
      subst hbuf
      exact max_eq_left this
    have := he hbuf
    subst hbuf
    exact this
  · rw [ByteFile.size_write hbuf]

/-- An open file after `buf` has been written to its inode at `pos`, by itself or by another one. -/
theorem Shown.written {fs : Fs} {x' : File} {vn' : VPtr} {v' : Vnode} {i' : Inode} {o' : Opened}
    (hs : Shown fs b o x vn v i) (hs' : Shown fs b o' x' vn' v' i') (hvno : vn'.vno = vn.vno) {pos : ℕ} {buf : List UInt8}
    (hb : pos + buf.length ≤ pageSize) (he : buf = [] → pos ≤ b.size) :
    Shown (fs.written vn v i b pos buf.length buf) (b.write pos buf) o' x' vn'
      { v with len := (b.write pos buf).size } { i with mem := .data (b.write pos buf).byte, size := (b.write pos buf).size } := by
  have hsize : max (b.size : ℤ) (pos + (buf.length : ℤ)) = (b.write pos buf).size := by
    rw [← size_write_all he]
    push_cast
    rfl
  have hfs : fs.written vn v i b pos buf.length buf = (fs.setVnode vn.vno (some { v with len := (b.write pos buf).size })).setInode
      vn.vno (some { i with mem := .data (b.write pos buf).byte, size := (b.write pos buf).size }) := by
    unfold Fs.written
    rw [Int.toNat_natCast, take_length, hsize]
  have hid : v.id = vn'.id := by
    have h1 := Fs.deref_some.1 hs'.deref
    have h2 := Fs.deref_some.1 hs.deref
    rw [hvno] at h1
    obtain rfl : v = v' := Option.some.inj (h2.1.symm.trans h1.1)
    exact h1.2
  rw [hfs]
  refine ⟨hs'.vnode, Fs.deref_some.2 ⟨?_, hid⟩, hs.regular, ?_, rfl, rfl, rfl, ?_, hs'.ino, hs'.pos, hs'.pos_lt, hs'.mode,
    hs'.modes, hs'.refcount⟩
  · simp [Fs.setInode, Fs.setVnode, hvno]
  · simp [Fs.setInode, hvno]
  rw [← size_write_all he]
  exact max_le hs.bound hb

/-- An open file of another inode. -/
theorem Shown.apart {fs : Fs} {b' : ByteFile} (hs : Shown fs b' o x vn v i) {vn' : VPtr} (hvno : vn.vno ≠ vn'.vno)
    (v' : Vnode) (i' : Inode) (b : ByteFile) (pos : ℕ) (r : ℤ) (buf : List UInt8) :
    Shown (fs.written vn' v' i' b pos r buf) b' o x vn v i := by
  refine { hs with deref := ?_, inode := ?_ }
  · rw [← hs.deref]
    simp [Fs.deref, Fs.written, Fs.setInode, Fs.setVnode, hvno]
  · rw [← hs.inode]
    simp [Fs.written, Fs.setInode, Fs.setVnode, hvno]

/-- Where the reference can follow a write: all of it fits on the page, and a write of nothing is not
behind the end of file. -/
def Io.WriteFits (a : Io) (f : ℕ) (buf : List UInt8) : Prop :=
  a.start f + buf.length ≤ pageSize ∧ (buf = [] → a.start f ≤ (a.content f).size)

def Io.stored (a : Io) (f : ℕ) (buf : List UInt8) : Io :=
  { a.moveTo f (a.start f + buf.length) with
    bytes := update a.bytes (a.opened f).ino ((a.content f).write (a.start f) buf) }

theorem stored_content (a : Io) (f : ℕ) (buf : List UInt8) :
    (a.stored f buf).content f = (a.content f).write (a.start f) buf := by
  simp [Io.content, Io.stored, Io.moveTo]

theorem write_fits {buf : List UInt8} (hw : a.Writable f) (hf : a.start f + buf.length ≤ pageSize) :
    a.write f buf = (((buf.length : ℤ), []), a.stored f buf) := by
  rw [Io.write, if_pos hw]
  simp only [take_of_length_le (show buf.length ≤ pageSize - a.start f by omega)]
  rfl

section
variable (h : Shows w a) (hx : w.file f = some x) (hs : Shown w.fs (a.content f) (a.opened f) x vn v i)
include h hx hs

theorem Shows.stored
    {buf : List UInt8} (hf : a.WriteFits f buf) :
    Shows ({ w with fs := w.fs.written vn v i (a.content f) (a.start f) buf.length buf }.setFile f
      (some { x with pos := ((a.start f + buf.length : ℕ) : ℤ) })) (a.stored f buf) := by
  obtain ⟨hb, he⟩ := hf
  have hpage : pageSize < 2 ^ 31 := by decide
  refine ⟨h.desc, fun {pid fd f'} hfd => ?_⟩
  obtain ⟨x', vn', v', i', hx', hs'⟩ := h.file hfd
  have hsame : (a.opened f').ino = (a.opened f).ino → (a.content f') = a.content f := by
    intro heq
    rw [Io.content, heq]
    rfl
  by_cases hf' : f' = f
  · subst hf'
    obtain rfl : x = x' := Option.some.inj (hx.symm.trans hx')
    have ho : (a.stored f' buf).opened f' = { a.opened f' with pos := a.start f' + buf.length } := by
      simp [Io.stored, Io.moveTo]
    rw [stored_content, ho]
    have hmoved : Shown w.fs (a.content f') { a.opened f' with pos := a.start f' + buf.length }
        { x with pos := ((a.start f' + buf.length : ℕ) : ℤ) } vn v i :=
      { hs with pos := rfl, pos_lt := by simp only; omega }
    exact ⟨_, vn, _, _, by simp [World.setFile], hs.written hmoved rfl hb he⟩
  have ho : (a.stored f buf).opened f' = a.opened f' := by simp [Io.stored, Io.moveTo, hf']
  rw [ho]
  by_cases hino : (a.opened f').ino = (a.opened f).ino
  · have hc : (a.stored f buf).content f' = (a.content f).write (a.start f) buf := by
      simp [Io.content, Io.stored, Io.moveTo, hf', hino]
    rw [hc]
    rw [hsame hino] at hs'
    refine ⟨x', vn', _, _, by simpa [World.setFile, hf'] using hx', hs.written hs' ?_ hb he⟩
    rw [← hs'.ino, ← hs.ino, hino]
  have hc : (a.stored f buf).content f' = a.content f' := by
    simp [Io.content, Io.stored, Io.moveTo, hf', hino]
  rw [hc]
  refine ⟨x', vn', v', i', by simpa [World.setFile, hf'] using hx', hs'.apart ?_ _ _ _ _ _ _⟩
  rw [← hs'.ino, ← hs.ino]
  exact hino

/-- A write on a writable file does what the reference does exactly if it fits. -/
theorem writeFile_shown {pid : ℕ} {fd : ℤ} (hfd : a.desc pid fd = some f)
    (hw : a.Writable f) {buf : List UInt8} (hlen : buf.length < 2 ^ 32) :
    (∃ w', writeFile pid fd f buf none w = .ok (a.write f buf).1.1 w' ∧ Shows w' (a.write f buf).2) ↔
      a.WriteFits f buf := by
  have hm : x.mode ≠ 1 := by
    rw [hs.mode]
    intro h1
    rw [Io.Writable, h1] at hw
    exact absurd hw (by decide)
  have hpage : pageSize = 4096 := rfl
  constructor
  · rintro ⟨w', hok, hshow⟩
    obtain ⟨h0, hle, hret, -, rfl⟩ := (writeFile_ok h hx hs hfd hm).1 hok
    have hdesc : (a.write f buf).2.desc pid fd = some f := by
      rw [Io.write, if_pos hw]
      exact hfd
    obtain ⟨y, vn', v', i', hy, hs'⟩ := hshow.file hdesc
    have hpos := hs'.pos
    simp only [World.setFile, update_self, Option.some.injEq] at hy
    rw [← hy, Io.write, if_pos hw] at hpos
    simp only [Io.moveTo, update_self, length_take] at hpos
    have hsmall : buf.length < 2 ^ 31 := by
      by_contra hbig
      rw [toInt_neg (by omega) (by omega)] at h0
      omega
    -- the position is the only trace of a write cut short
    have hall : a.start f + buf.length ≤ pageSize := by
      by_contra hlong
      by_cases hover : (a.start f + buf.length : ℤ) < 2 ^ 31
      · rw [toInt_of_lt (by omega) hover] at hpos
        omega
      · rw [toInt_neg (by omega) (by omega)] at hpos
        omega
    refine ⟨hall, fun hnil => ?_⟩
    rw [write_fits hw hall] at hs'
    obtain rfl : vn = vn' := by
      have hv := hs'.vnode
      rw [← hy] at hv
      exact Option.some.inj (hs.vnode.symm.trans hv)
    have hino := hs'.inode
    simp only [World.setFile, Fs.written, Fs.setInode, update_self, Option.some.injEq] at hino
    have hsize := hs'.size
    have hsame : ((a.content f).write (a.start f) buf).size = (a.content f).size := if_pos hnil
    rw [stored_content, hsame, ← hino] at hsize
    simp only at hsize
    omega
  · intro hf
    obtain ⟨hall, -⟩ := id hf
    have hlen' : toInt buf.length = buf.length := toInt_of_lt (by omega) (by omega)
    have hpos : toInt (a.start f + buf.length) = ((a.start f + buf.length : ℕ) : ℤ) := by
      rw [toInt_of_lt (by omega) (by omega)]
      rfl
    rw [write_fits hw hall]
    refine ⟨_, (writeFile_ok h hx hs hfd hm).2 ⟨by omega, by omega, ?_, by omega, rfl⟩, ?_⟩
    · simp only
      omega
    · rw [hpos]
      exact h.stored hx hs hf

end

end Files

/-! ### Calls and sequences of calls -/

/-- Where the code does what the reference does: the descriptor is not 32; a read or write is not on a
file opened with `O_RDONLY | O_APPEND`, whose mode is 0; a read that could give bytes asks for fewer
than 2 ^ 31; a write fits. -/
def Io.Fits (a : Io) : IoCall → Prop
  | .read pid fd nbytes => fd ≠ nFiles ∧ ∀ f, a.desc pid fd = some f → (a.opened f).mode ≠ 0 ∧
      (a.Readable f → nbytes.toNat < 2 ^ 31 ∨ (a.content f).size ≤ (a.opened f).pos)
  | .write pid fd buf _ => fd ≠ nFiles ∧ ∀ f, a.desc pid fd = some f → (a.opened f).mode ≠ 0 ∧
      (a.Writable f → a.WriteFits f buf)
  | .lseek _ fd _ _ => fd ≠ nFiles

/-- A call comes back with the result of the reference and leaves what the reference leaves. -/
def Agrees (w : World) (a : Io) (c : IoCall) (w' : World) : Prop := c.exec w = .ok (a.step c).1 w' ∧ Shows w' (a.step c).2

def Follows : World → Io → List IoCall → Prop
  | _, _, [] => True
  | w, a, c :: cs => ∃ w', Agrees w a c w' ∧ Follows w' (a.step c).2 cs

def Io.AllFit : Io → List IoCall → Prop
  | _, [] => True
  | a, c :: cs => a.Fits c ∧ (a.step c).2.AllFit cs

def IoCall.pid : IoCall → ℕ
  | read pid _ _ => pid
  | write pid _ _ _ => pid
  | lseek pid _ _ _ => pid

def IoCall.fd : IoCall → ℤ
  | read _ fd _ => fd
  | write _ fd _ _ => fd
  | lseek _ fd _ _ => fd

section Calls

variable {w : World} {a : Io} {pid f : ℕ} {fd : ℤ} {c : IoCall}

theorem modes_cases {m : ℕ} (h : m ∈ ([0, 1, 2, 3, 6, 7] : List ℕ)) :
    m = 0 ∨ m = 1 ∨ m = 2 ∨ m = 3 ∨ m = 6 ∨ m = 7 := by
  simpa using h

theorem checkFd_none (h : w.desc pid fd = none) (hfd : fd ≠ nFiles) : checkFd pid fd w = .ok .bad w :=
  checkFd_ok.2 ⟨.inl ⟨rfl, hfd, h⟩, rfl⟩

theorem checkFd_beyond (hfd : fd = nFiles) : checkFd pid fd w = .ok .beyond w :=
  checkFd_ok.2 ⟨.inr (.inl ⟨rfl, hfd⟩), rfl⟩

theorem exec_none (h : w.desc c.pid c.fd = none) (hfd : c.fd ≠ nFiles) : c.exec w = .ok (-Errno.ebadf.code, []) w := by
  cases c with
  | read pid fd nbytes => exact bind_ok_iff.2 ⟨_, w, checkFd_none h hfd, rfl⟩
  | write pid fd buf hlen | lseek pid fd offset whence =>
    exact bind_ok_iff.2 ⟨_, w, bind_ok_iff.2 ⟨_, w, checkFd_none h hfd, rfl⟩, rfl⟩

theorem exec_beyond (hfd : c.fd = nFiles) {r : ℤ × List UInt8} {w' : World} : c.exec w ≠ .ok r w' := by
  intro h
  cases c with
  | read pid fd nbytes | write pid fd buf hlen | lseek pid fd offset whence =>
    change fd = nFiles at hfd
    simp only [IoCall.exec, doRead, doWrite, doLseek, bind_assoc, bind_ok _ (checkFd_beyond hfd)] at h
    cases h

theorem step_none (h : a.desc c.pid c.fd = none) : a.step c = ((-Errno.ebadf.code, []), a) := by
  cases c with
  | read pid fd nbytes | write pid fd buf hlen | lseek pid fd offset whence =>
    rw [Io.step, show a.desc pid fd = none from h]; rfl

theorem fits_none (h : a.desc c.pid c.fd = none) (hfd : c.fd ≠ nFiles) : a.Fits c := by
  cases c with
  | read pid fd nbytes | write pid fd buf hlen => exact ⟨hfd, fun f hf => absurd (h.symm.trans hf) (by simp)⟩
  | lseek pid fd offset whence => exact hfd

theorem fits_fd (h : a.Fits c) : c.fd ≠ nFiles := by
  cases c with
  | read pid fd nbytes | write pid fd buf hlen => exact h.1
  | lseek pid fd offset whence => exact h

/-- A count of 2 ^ 31 or more is negative, and then nothing is read. -/
theorem read_toInt {b : ByteFile} {pos : ℕ} (n : UInt32) :
    b.read pos (toInt n.toNat).toNat = b.read pos n.toNat ↔ n.toNat < 2 ^ 31 ∨ b.size ≤ pos := by
  have hn := n.toNat_lt
  constructor
  · intro h
    by_contra hc
    have hlen := congrArg List.length h
    simp only [ByteFile.read, length_map, length_range] at hlen
    rw [toInt_neg (by omega) (by omega)] at hlen
    omega
  · rintro (h | h)
    · rw [toInt_of_lt (by omega) (by omega), Int.toNat_natCast]
    simp only [ByteFile.read]
    rw [show b.size - pos = 0 by omega, Nat.min_zero, Nat.min_zero]

section
variable (h : Shows w a) (hf : a.desc pid fd = some f)
include h hf

theorem read_agrees (hfd : fd ≠ nFiles) (nbytes : UInt32) :
    (∃ w', Agrees w a (.read pid fd nbytes) w') ↔ a.Fits (.read pid fd nbytes) := by
  obtain ⟨x, vn, v, i, hx, hs⟩ := h.file hf
  have hexec : (IoCall.read pid fd nbytes).exec w = readFile f nbytes.toNat none w := by
    rw [IoCall.exec, doRead, bind_ok _ (checkFd_file ((h.desc pid fd).trans hf))]
  have hstep : a.step (.read pid fd nbytes) = a.read f nbytes.toNat := by
    rw [Io.step, hf]
    rfl
  have hfits : a.Fits (.read pid fd nbytes) ↔ (a.opened f).mode ≠ 0 ∧
      (a.Readable f → nbytes.toNat < 2 ^ 31 ∨ (a.content f).size ≤ (a.opened f).pos) := by
    simp [Io.Fits, hfd, hf]
  have hmodes := modes_cases hs.modes
  have hmode := hs.mode
  unfold Agrees
  rw [hexec, hstep, hfits, Io.read]
  by_cases hr : a.Readable f
  · rw [if_pos hr, readFile_shown hx hs _ (by unfold Io.Readable at hr; omega), ← read_toInt]
    have h0 : (a.opened f).mode ≠ 0 := by unfold Io.Readable at hr; omega
    simp only [ne_eq, h0, not_false_eq_true, hr, true_and, forall_const]
    generalize (a.content f).read (a.opened f).pos (toInt nbytes.toNat).toNat = data
    constructor
    · rintro ⟨w', hok, -⟩
      injection hok with hres
      exact (Prod.mk.inj hres).2
    intro heq
    rw [heq]
    refine ⟨_, rfl, h.setFile hx _ x.refcount ?_ hs.refcount⟩
    have h1 := hs.pos_lt
    have h2 : (a.content f).size ≤ 4096 := hs.bound
    have h3 := length_read_le (a.content f) (a.opened f).pos nbytes.toNat
    omega
  · simp only [hr, false_imp_iff, and_true]
    by_cases h0 : (a.opened f).mode = 0
    · rw [readFile_shown hx hs _ (by omega)]
      simp only [h0, ne_eq, not_true_eq_false, iff_false, not_exists, not_and]
      rintro w' hok
      injection hok with hres
      have := (Prod.mk.inj hres).1
      exact absurd this (by simp only [Errno.code]; omega)
    · rw [readFile_denied hx hs _ (by unfold Io.Readable at hr; omega)]
      simp only [h0, ne_eq, not_false_eq_true, iff_true]
      exact ⟨_, rfl, h.fref hx hs⟩

theorem write_agrees (hfd : fd ≠ nFiles) {buf : List UInt8} (hlen : buf.length < 2 ^ 32) :
    (∃ w', Agrees w a (.write pid fd buf hlen) w') ↔ a.Fits (.write pid fd buf hlen) := by
  obtain ⟨x, vn, v, i, hx, hs⟩ := h.file hf
  have hexec : (IoCall.write pid fd buf hlen).exec w = (do return (← writeFile pid fd f buf none, []) : Sys _) w := by
    rw [IoCall.exec, doWrite, bind_assoc, bind_ok _ (checkFd_file ((h.desc pid fd).trans hf))]
  have hstep : a.step (.write pid fd buf hlen) = a.write f buf := by
    rw [Io.step, hf]
    rfl
  have hnil : (a.write f buf).1.2 = [] := by
    unfold Io.write
    split <;> rfl
  have hagree : (∃ w', Agrees w a (.write pid fd buf hlen) w') ↔
      ∃ w', writeFile pid fd f buf none w = .ok (a.write f buf).1.1 w' ∧ Shows w' (a.write f buf).2 := by
    refine exists_congr fun w' => ?_
    unfold Agrees
    rw [hexec, hstep, bind_ok_iff]
    simp only [pure_ok_iff, Prod.ext_iff, hnil, and_true]
    constructor
    · rintro ⟨⟨r, _, hok, rfl, rfl⟩, hw⟩
      exact ⟨hok, hw⟩
    · rintro ⟨hok, hw⟩
      exact ⟨⟨_, w', hok, rfl, rfl⟩, hw⟩
  have hfits : a.Fits (.write pid fd buf hlen) ↔ (a.opened f).mode ≠ 0 ∧ (a.Writable f → a.WriteFits f buf) := by
    simp [Io.Fits, hfd, hf]
  have hmodes := modes_cases hs.modes
  have hmode := hs.mode
  rw [hagree, hfits]
  by_cases hw : a.Writable f
  · have h0 : (a.opened f).mode ≠ 0 := by unfold Io.Writable at hw; omega
    rw [writeFile_shown h hx hs hf hw hlen]
    simp [h0, hw]
  simp only [hw, false_imp_iff, and_true]
  rw [Io.write, if_neg hw]
  by_cases h0 : (a.opened f).mode = 0
  · simp only [h0, ne_eq, not_true_eq_false, iff_false, not_exists, not_and]
    rintro w' hok
    obtain ⟨hpos, hle, hret, -⟩ := (writeFile_ok h hx hs hf (by omega)).1 hok
    simp only [Errno.code] at hret
    omega
  · rw [writeFile_denied hx hs (by unfold Io.Writable at hw; omega)]
    simp only [h0, ne_eq, not_false_eq_true, iff_true]
    exact ⟨_, rfl, h.fref hx hs⟩

theorem lseek_agrees (offset : Int32) (whence : ℕ) : ∃ w', Agrees w a (.lseek pid fd offset whence) w' := by
  obtain ⟨x, vn, v, i, hx, hs⟩ := h.file hf
  obtain ⟨w', hok, hw⟩ := seekFile_shown h hx hs offset.le_toInt offset.toInt_lt whence
  have hstep : a.step (.lseek pid fd offset whence) = a.lseek f offset.toInt whence := by
    rw [Io.step, hf]
    rfl
  have hnil : (a.lseek f offset.toInt whence).1 = ((a.lseek f offset.toInt whence).1.1, []) := by
    unfold Io.lseek
    split
    · split <;> rfl
    · rfl
  refine ⟨w', ?_, by rw [hstep]; exact hw⟩
  rw [hstep, hnil, IoCall.exec, doLseek, bind_assoc, bind_ok _ (checkFd_file ((h.desc pid fd).trans hf))]
  exact bind_ok_iff.2 ⟨_, w', hok, rfl⟩

end

/-- One call. -/
theorem agrees_iff_fits (h : Shows w a) : (∃ w', Agrees w a c w') ↔ a.Fits c := by
  by_cases hfd : c.fd = nFiles
  · constructor
    · rintro ⟨w', hok, -⟩
      exact absurd hok (exec_beyond hfd)
    · intro hfits
      exact absurd hfd (fits_fd hfits)
  cases hf : a.desc c.pid c.fd with
  | none =>
    refine ⟨fun _ => fits_none hf hfd, fun _ => ⟨w, ?_⟩⟩
    unfold Agrees
    rw [step_none hf]
    exact ⟨exec_none ((h.desc _ _).trans hf) hfd, h⟩
  | some f =>
    cases c with
    | read pid fd nbytes => exact read_agrees h hf hfd nbytes
    | write pid fd buf hlen => exact write_agrees h hf hfd hlen
    | lseek pid fd offset whence => exact ⟨fun _ => hfd, fun _ => lseek_agrees h hf offset whence⟩

end Calls

/-- Reads, writes and seeks on regular files match the reference as long as every call fits, and only
as long. -/
theorem follows_iff_allFit {w : World} {a : Io} (h : Shows w a) (cs : List IoCall) : Follows w a cs ↔ a.AllFit cs := by
  induction cs generalizing w a with
  | nil => exact Iff.rfl
  | cons c cs ih =>
    constructor
    · rintro ⟨w', hc, hcs⟩
      exact ⟨(agrees_iff_fits h).1 ⟨w', hc⟩, (ih hc.2).1 hcs⟩
    rintro ⟨hc, hcs⟩
    obtain ⟨w', hw⟩ := (agrees_iff_fits h).2 hc
    exact ⟨w', hw, (ih hw.2).2 hcs⟩

/-! An empty file, open for reading and writing at the descriptor 0 of every process. -/

def oneFile : World where
  fs := ⟨fun n => if n = 1 then some ⟨0, 1, .data fun _ => 0, 2⟩ else none,
    fun n => if n = 1 then some ⟨0, 1, .reg, 0⟩ else none, 1⟩
  file f := if f = 0 then some ⟨0, 3, 1, some ⟨1, 0⟩⟩ else none
  allocs := 1
  proc _ := ⟨fun fd => if fd = 0 then some 0 else none, rootVn⟩

def oneOpened : Io where
  desc _ fd := if fd = 0 then some 0 else none
  opened _ := ⟨1, 0, 3⟩
  bytes _ := .empty

theorem oneFile_shows : Shows oneFile oneOpened := by
  refine ⟨fun pid fd => ?_, fun {pid fd f} hf => ?_⟩
  · have hn : nFiles = 32 := rfl
    simp only [World.desc, oneFile, oneOpened]
    split_ifs <;> first | rfl | omega
  have h0 : f = 0 := by
    simp only [oneOpened] at hf
    split_ifs at hf
    exact (Option.some.inj hf).symm
  subst h0
  exact ⟨_, ⟨1, 0⟩, _, _, rfl, rfl, rfl, rfl, rfl, rfl, rfl, rfl, Nat.zero_le _, rfl, rfl, by decide, rfl, by decide,
    by decide⟩

/-- A byte written, and read from the start. -/
theorem follows_write_seek_read :
    Follows oneFile oneOpened [.write 0 0 [65] (by decide), .lseek 0 0 0 0, .read 0 0 7] := by
  refine (follows_iff_allFit oneFile_shows _).2 ⟨⟨by decide, ?_⟩, ?_, ⟨by decide, ?_⟩, trivial⟩
  · intro f hf
    cases hf
    exact ⟨by decide, fun _ => ⟨by decide, nofun⟩⟩
  · show (0 : ℤ) ≠ nFiles
    decide
  intro f hf
  cases hf
  exact ⟨by decide, fun _ => .inl (by decide)⟩

/-- Two bytes do not fit at the last byte of the page: the write returns one, as it should, and the
position is two bytes further. -/
theorem short_write_moves_too_far :
    let seek := IoCall.lseek 0 0 4095 0
    let write := IoCall.write 0 0 [65, 66] (by decide)
    let tell := IoCall.lseek 0 0 0 1
    (∃ w₁ w₂ w₃, seek.exec oneFile = .ok (4095, []) w₁ ∧ write.exec w₁ = .ok (1, []) w₂ ∧
      tell.exec w₂ = .ok (4097, []) w₃) ∧
    (oneOpened.step seek).1 = (4095, []) ∧ ((oneOpened.step seek).2.step write).1 = (1, []) ∧
      (((oneOpened.step seek).2.step write).2.step tell).1 = (4096, []) :=
  ⟨⟨_, _, _, rfl, rfl, rfl⟩, rfl, rfl, rfl⟩

end Weenix.Vfs
