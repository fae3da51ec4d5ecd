import Weenix.Proofs.VfsFile

/-! What `do_open` does when it comes back, and when that is what its contract asks for. -/

namespace Weenix.Vfs

open Function Exec Option

variable {w w' : World} {pid : ℕ} {r : ℤ}

def World.LowestFree (w : World) (pid : ℕ) (i : Fin nFiles) : Prop :=
  w.slot (pid, i) = none ∧ ∀ j < i, w.slot (pid, j) ≠ none

def World.EmptyFd (w : World) (pid : ℕ) (fd : ℤ) : Prop :=
  (fd = -Errno.emfile.code ∧ ∀ i : Fin nFiles, w.slot (pid, i) ≠ none) ∨ ∃ i : Fin nFiles, fd = i ∧ w.LowestFree pid i

theorem getEmptyFd_ok : getEmptyFd pid w = .ok r w' ↔ w = w' ∧ w.EmptyFd pid r := by
  simp only [getEmptyFd, bind_ok_iff, get_ok_iff]
  cases hfind : (List.range nFiles).find? fun fd => ((w.proc pid).files fd).isNone with
  | none =>
    have hfull : ∀ i : Fin nFiles, w.slot (pid, i) ≠ none := by
      intro i
      have hi := List.find?_range_eq_none.1 hfind i i.isLt
      rw [Bool.not_eq_true', isNone_eq_false_iff] at hi
      exact isSome_iff_ne_none.1 hi
    constructor
    · rintro ⟨_, _, ⟨rfl, rfl⟩, h⟩
      rw [hfind] at h
      obtain ⟨rfl, rfl⟩ := pure_ok_iff.1 h
      exact ⟨rfl, .inl ⟨rfl, hfull⟩⟩
    · rintro ⟨rfl, ⟨rfl, -⟩ | ⟨i, -, hfree, -⟩⟩
      · refine ⟨w, w, ⟨rfl, rfl⟩, ?_⟩
        rw [hfind]
        rfl
      · exact absurd hfree (hfull i)
  | some n =>
    obtain ⟨hn, hmem, hlow⟩ := List.find?_range_eq_some.1 hfind
    have hlt : n < nFiles := List.mem_range.1 hmem
    have hlowest : w.LowestFree pid ⟨n, hlt⟩ := by
      refine ⟨isNone_iff_eq_none.1 hn, fun j hj => ?_⟩
      have hj' := hlow j hj
      rw [Bool.not_eq_true', isNone_eq_false_iff] at hj'
      exact isSome_iff_ne_none.1 hj'
    constructor
    · rintro ⟨_, _, ⟨rfl, rfl⟩, h⟩
      rw [hfind] at h
      obtain ⟨rfl, rfl⟩ := pure_ok_iff.1 h
      exact ⟨rfl, .inr ⟨⟨n, hlt⟩, rfl, hlowest⟩⟩
    rintro ⟨rfl, ⟨-, hfull⟩ | ⟨i, rfl, hfree, hlow'⟩⟩
    · exact absurd hlowest.1 (hfull _)
    obtain rfl : i = ⟨n, hlt⟩ := by
      rcases lt_trichotomy i ⟨n, hlt⟩ with h | h | h
      · exact absurd hfree (hlowest.2 i h)
      · exact h
      · exact absurd hlowest.1 (hlow' _ h)
    refine ⟨w, w, ⟨rfl, rfl⟩, ?_⟩
    rw [hfind]
    rfl

/-- After the store to `p_files[fd]`: a negative index is none of the table. -/
def World.putFd (w : World) (pid : ℕ) (fd : ℤ) (o : Option ℕ) : World :=
  if fd < 0 then w else w.setFd pid fd.toNat o

theorem putFd_nat (w : World) (i : Fin nFiles) (o : Option ℕ) : w.putFd pid i o = w.setFd pid i o := by
  rw [World.putFd, if_neg (by omega), Int.toNat_natCast]

theorem setFd_empty {w1 : World} {fd : ℤ} {o : Option ℕ} {u : Unit} (hfd : w1.EmptyFd pid fd) :
    setFd pid fd o w = .ok u w' ↔ w.putFd pid fd o = w' := by
  rcases hfd with ⟨rfl, -⟩ | ⟨i, rfl, -⟩
  · exact pure_ok_iff.trans ⟨And.right, fun h => ⟨rfl, h⟩⟩
  rw [putFd_nat, setFd_ok (by omega)]
  constructor
  · rintro ⟨j, hj, h⟩
    obtain rfl : j = i := Fin.ext (by omega)
    exact h
  · exact fun h => ⟨i, rfl, h⟩

def World.made (w : World) (memory : Bool) : World :=
  if memory then { w.setFile w.allocs (some ⟨0, 0, 1, none⟩) with allocs := w.allocs + 1 } else w

theorem fnew_ok {memory : Bool} {f : Option ℕ} : fnew memory w = .ok f w' ↔
    (if memory then some w.allocs else none) = f ∧ w.made memory = w' := by
  unfold fnew World.made
  cases memory with
  | false => exact pure_ok_iff
  | true =>
    have hset : (set { w.setFile w.allocs (some ⟨0, 0, 0, none⟩) with allocs := w.allocs + 1 } : Sys PUnit) w =
        .ok ⟨⟩ { w.setFile w.allocs (some ⟨0, 0, 0, none⟩) with allocs := w.allocs + 1 } := rfl
    simp only [if_true, bind_ok_iff, get_ok_iff, fref_ok, pure_ok_iff]
    constructor
    · rintro ⟨_, _, ⟨rfl, rfl⟩, _, _, hw, _, _, ⟨x, hx, -, -, rfl⟩, rfl, rfl⟩
      obtain rfl := EStateM.Result.ok.inj (hset.symm.trans hw) |>.2
      simp only [World.setFile, update_self, Option.some.injEq] at hx
      subst hx
      exact ⟨rfl, by simp [World.setFile]⟩
    · rintro ⟨rfl, rfl⟩
      refine ⟨w, w, ⟨rfl, rfl⟩, _, _, hset, (), _, ⟨⟨0, 0, 0, none⟩, ?_, ⟨?_, ?_⟩, ?_, rfl⟩, rfl, ?_⟩
      · simp [World.setFile]
      · decide
      · decide
      · exact fun h => absurd rfl h
      · simp [World.setFile]

def OddFlags (oflags : ℤ) : Prop := (oflags - 3).tmod 2 = 0 ∧ 0 ≤ oflags - 3

/-- How `do_open` ends once the path is resolved, `fd` being the descriptor. -/
def OpenEnds (w : World) (pid : ℕ) (fd oflags : ℤ) (env : Env) (fs : Fs) (r : ℤ) (w' : World) :
    Except Failure VPtr → Prop
  | .error e => ∃ fs', Drops (env.leftVnode e) fs fs' ∧ -e.errno.code = r ∧ { w.made env.fileMemory with fs := fs' } = w'
  | .ok vn => ∃ v, fs.deref vn = some v ∧
      if v.mode = .dir ∧ (oflags = 1 ∨ oflags = 2) then
        ∃ fs', vput vn fs = .ok () fs' ∧ -Errno.eisdir.code = r ∧ { w.made env.fileMemory with fs := fs' } = w'
      else env.fileMemory = true ∧ fd = r ∧
        { (w.made env.fileMemory).putFd pid fd (some w.allocs) with fs := fs }.setFile w.allocs
          (some ⟨0, (fileMode oflags).getD 0, 1, some vn⟩) = w'

theorem setFd_back {i : Fin nFiles} (h : w.slot (pid, i) = none) (o : Option ℕ) :
    (w.setFd pid i o).setFd pid i none = w := by
  have hfile : update (w.proc pid).files i none = (w.proc pid).files := by
    rw [← h]
    exact update_eq_self ..
  simp only [World.setFd, update_self, update_idem, hfile, update_eq_self]

theorem putFd_back {fd : ℤ} (h : w.EmptyFd pid fd) (o : Option ℕ) : (w.putFd pid fd o).putFd pid fd none = w := by
  rcases h with ⟨rfl, -⟩ | ⟨i, rfl, hi⟩
  · rfl
  · rw [putFd_nat, putFd_nat, setFd_back hi.1]

theorem made_slot (w : World) (memory : Bool) : (w.made memory).slot = w.slot := by
  cases memory <;> rfl

theorem made_emptyFd {memory : Bool} {fd : ℤ} : (w.made memory).EmptyFd pid fd ↔ w.EmptyFd pid fd := by
  unfold World.EmptyFd World.LowestFree
  rw [made_slot]

theorem made_proc (w : World) (memory : Bool) : (w.made memory).proc = w.proc := by
  cases memory <;> rfl

theorem made_fs (w : World) (memory : Bool) : (w.made memory).fs = w.fs := by
  cases memory <;> rfl

theorem setFd_cwd (w : World) (i : ℕ) (o : Option ℕ) : ((w.setFd pid i o).proc pid).cwd = (w.proc pid).cwd := by
  simp [World.setFd]

theorem putFd_cwd (w : World) (fd : ℤ) (o : Option ℕ) : ((w.putFd pid fd o).proc pid).cwd = (w.proc pid).cwd := by
  unfold World.putFd
  split_ifs
  · rfl
  · exact setFd_cwd w _ o

theorem putFd_same (w : World) (pid : ℕ) (fd : ℤ) (o : Option ℕ) :
    (w.putFd pid fd o).fs = w.fs ∧ (w.putFd pid fd o).file = w.file ∧ (w.putFd pid fd o).allocs = w.allocs := by
  unfold World.putFd
  split_ifs <;> exact ⟨rfl, rfl, rfl⟩

theorem putFd_fs (w : World) (fs : Fs) (fd : ℤ) (o : Option ℕ) :
    ({ w with fs := fs } : World).putFd pid fd o = { w.putFd pid fd o with fs := fs } := by
  unfold World.putFd
  split_ifs <;> rfl

section Ends

variable {w1 : World} {fd oflags : ℤ} {f : Option ℕ} {env : Env}

theorem openFile_ok (hfd : w1.EmptyFd pid fd) {vn : VPtr} :
    openFile pid fd f oflags vn w = .ok r w' ↔ ∃ v, w.fs.deref vn = some v ∧
      if v.mode = .dir ∧ (oflags = 1 ∨ oflags = 2) then
        ∃ fs, vput vn w.fs = .ok () fs ∧ -Errno.eisdir.code = r ∧ { w.putFd pid fd none with fs := fs } = w'
      else ∃ g x, f = some g ∧ w.file g = some x ∧ fd = r ∧
        w.setFile g (some { x with vnode := some vn, mode := (fileMode oflags).getD x.mode }) = w' := by
  have hderef : ∀ {v w1}, onFs (deref vn) w = .ok v w1 ↔ w.fs.deref vn = some v ∧ w = w1 := by
    intro v w1
    rw [onFs_ok]
    constructor
    · rintro ⟨fs, hd, rfl⟩
      obtain ⟨hv, rfl⟩ := need_ok.1 hd
      exact ⟨hv, rfl⟩
    · rintro ⟨hd, rfl⟩
      exact ⟨w.fs, need_ok.2 ⟨hd, rfl⟩, rfl⟩
  unfold openFile
  simp only [bind_ok_iff, hderef]
  constructor
  · rintro ⟨v, _, ⟨hd, rfl⟩, h⟩
    refine ⟨v, hd, ?_⟩
    split at h
    · next hdir =>
      rw [if_pos hdir]
      simp only [bind_ok_iff, setFd_empty hfd, onFs_ok, pure_ok_iff] at h
      obtain ⟨_, _, rfl, _, _, ⟨fs, hput, rfl⟩, rfl, rfl⟩ := h
      exact ⟨fs, (putFd_same w pid fd none).1 ▸ hput, rfl, rfl⟩
    next hdir =>
    rw [if_neg hdir]
    cases f with
    | none => cases h
    | some g =>
      simp only [bind_ok_iff, fileAt_ok, setFile_ok, pure_ok_iff] at h
      obtain ⟨x, _, ⟨hx, rfl⟩, _, _, rfl, rfl, rfl⟩ := h
      exact ⟨g, x, rfl, hx, rfl, rfl⟩
  · rintro ⟨v, hd, h⟩
    refine ⟨v, w, ⟨hd, rfl⟩, ?_⟩
    split at h
    · next hdir =>
      obtain ⟨fs, hput, rfl, rfl⟩ := h
      rw [if_pos hdir]
      simp only [bind_ok_iff, setFd_empty hfd, onFs_ok, pure_ok_iff]
      exact ⟨(), _, rfl, (), _, ⟨fs, (putFd_same w pid fd none).1.symm ▸ hput, rfl⟩, trivial, rfl⟩
    next hdir =>
    obtain ⟨g, x, rfl, hx, rfl, rfl⟩ := h
    rw [if_neg hdir]
    simp only [bind_ok_iff, fileAt_ok, setFile_ok, pure_ok_iff]
    exact ⟨x, w, ⟨hx, rfl⟩, (), _, rfl, trivial, rfl⟩

/-- How `do_open` ends, from the world where the descriptor has been set. -/
theorem resolve_ok (hfd : w1.EmptyFd pid fd) {path : CStr} : (do
      let cwd := ((← get).proc pid).cwd
      match ← onFs (openNamev cwd path (openFlag oflags) env.memory) with
      | .error e =>
        setFd pid fd none
        dropVnode (env.leftVnode e)
        return -e.errno.code
      | .ok vn => openFile pid fd f oflags vn : Sys ℤ) w = .ok r w' ↔
    ∃ res fs, openNamev (w.proc pid).cwd path (openFlag oflags) env.memory w.fs = .ok res fs ∧
      match res with
      | .error e => ∃ fs', Drops (env.leftVnode e) fs fs' ∧ -e.errno.code = r ∧ { w.putFd pid fd none with fs := fs' } = w'
      | .ok vn => openFile pid fd f oflags vn { w with fs := fs } = .ok r w' := by
  simp only [bind_ok_iff, get_ok_iff, onFs_ok]
  constructor
  · rintro ⟨_, _, ⟨rfl, rfl⟩, res, _, ⟨fs, hres, rfl⟩, h⟩
    refine ⟨res, fs, hres, ?_⟩
    cases res with
    | error e =>
      simp only [bind_ok_iff, setFd_empty hfd, dropVnode_ok, pure_ok_iff] at h
      obtain ⟨_, _, rfl, _, _, ⟨fs', hdrop, rfl⟩, rfl, rfl⟩ := h
      rw [putFd_fs w fs] at hdrop ⊢
      exact ⟨fs', hdrop, rfl, rfl⟩
    | ok vn => exact h
  · rintro ⟨res, fs, hres, h⟩
    refine ⟨w, w, ⟨rfl, rfl⟩, res, _, ⟨fs, hres, rfl⟩, ?_⟩
    cases res with
    | error e =>
      obtain ⟨fs', hdrop, rfl, rfl⟩ := h
      simp only [bind_ok_iff, setFd_empty hfd, dropVnode_ok, pure_ok_iff]
      refine ⟨(), _, rfl, (), _, ⟨fs', ?_, rfl⟩, trivial, ?_⟩
      · rw [putFd_fs w fs]
        exact hdrop
      · rw [putFd_fs w fs]
    | ok vn => exact h

theorem made_allocs (w : World) : (w.made true).file w.allocs = some ⟨0, 0, 1, none⟩ := by
  simp [World.made, World.setFile]

theorem openEnds_iff (hfd : w.EmptyFd pid fd) {fs : Fs} {res : Except Failure VPtr}
    (hf : (if env.fileMemory then some w.allocs else none) = f) :
    (match res with
      | .error e => ∃ fs', Drops (env.leftVnode e) fs fs' ∧ -e.errno.code = r ∧
          { ((w.made env.fileMemory).putFd pid fd f).putFd pid fd none with fs := fs' } = w'
      | .ok vn => openFile pid fd f oflags vn { (w.made env.fileMemory).putFd pid fd f with fs := fs } = .ok r w') ↔
      OpenEnds w pid fd oflags env fs r w' res := by
  have hempty : (w.made env.fileMemory).EmptyFd pid fd := made_emptyFd.2 hfd
  have hback := putFd_back hempty f
  cases res with
  | error e =>
    simp only [hback]
    exact Iff.rfl
  | ok vn =>
    refine (openFile_ok hfd).trans ?_
    refine exists_congr fun v => and_congr_right fun _ => ?_
    rw [putFd_fs ((w.made env.fileMemory).putFd pid fd f) fs, hback]
    split
    · exact Iff.rfl
    subst hf
    have hfile : ({ (w.made env.fileMemory).putFd pid fd (if env.fileMemory then some w.allocs else none) with
        fs := fs } : World).file = (w.made env.fileMemory).file := (putFd_same ..).2.1
    rw [hfile]
    cases env.fileMemory with
    | false =>
      refine iff_of_false ?_ fun h => by cases h.1
      rintro ⟨g, x, hg, -⟩
      cases hg
    | true =>
      constructor
      · rintro ⟨g, x, hg, hx, rfl, rfl⟩
        obtain rfl : w.allocs = g := Option.some.inj hg
        obtain rfl : (⟨0, 0, 1, none⟩ : File) = x := Option.some.inj ((made_allocs w).symm.trans hx)
        exact ⟨rfl, rfl, rfl⟩
      · rintro ⟨-, rfl, rfl⟩
        exact ⟨w.allocs, ⟨0, 0, 1, none⟩, rfl, made_allocs w, rfl, rfl⟩

end Ends

/-- What the code before and after the resolution of the path does. -/
theorem doOpen_ok {path : CStr} {oflags : ℤ} {env : Env} : doOpen pid path oflags env w = .ok r w' ↔
    (OddFlags oflags ∧ Errno.einval.code = r ∧ w = w') ∨
      (¬ OddFlags oflags ∧ ∃ fd, w.EmptyFd pid fd ∧ ∃ res fs,
        openNamev (w.proc pid).cwd path (openFlag oflags) env.memory w.fs = .ok res fs ∧
        OpenEnds w pid fd oflags env fs r w' res) := by
  unfold doOpen OddFlags
  split
  · next hodd => simp only [pure_ok_iff, hodd, and_self, true_and, not_true_eq_false, false_and, or_false]
  next hodd =>
  simp only [hodd, false_and, not_false_eq_true, true_and, false_or]
  constructor
  · intro h
    obtain ⟨f, w1, hnew, h⟩ := bind_ok_iff.1 h
    obtain ⟨fd, w2, hget, h⟩ := bind_ok_iff.1 h
    obtain ⟨_, w3, hset, h⟩ := bind_ok_iff.1 h
    obtain ⟨hf, rfl⟩ := fnew_ok.1 hnew
    obtain ⟨rfl, hfd⟩ := getEmptyFd_ok.1 hget
    rw [made_emptyFd] at hfd
    obtain rfl := (setFd_empty hfd).1 hset
    obtain ⟨res, fs, hres, hend⟩ := (resolve_ok hfd).1 h
    rw [putFd_cwd, made_proc, (putFd_same ..).1, made_fs] at hres
    exact ⟨fd, hfd, res, fs, hres, (openEnds_iff hfd hf).1 hend⟩
  · rintro ⟨fd, hfd, res, fs, hres, hend⟩
    refine bind_ok_iff.2 ⟨_, _, fnew_ok.2 ⟨rfl, rfl⟩, ?_⟩
    refine bind_ok_iff.2 ⟨fd, _, getEmptyFd_ok.2 ⟨rfl, made_emptyFd.2 hfd⟩, ?_⟩
    refine bind_ok_iff.2 ⟨(), _, (setFd_empty hfd).2 rfl, ?_⟩
    refine (resolve_ok hfd).2 ⟨res, fs, ?_, (openEnds_iff hfd rfl).2 hend⟩
    rw [putFd_cwd, made_proc, (putFd_same ..).1, made_fs]
    exact hres

/-! ### The contract -/

/-- What `oflags` are built from: an access mode, 3 for both write bits, `O_CREAT` and `O_APPEND`. -/
structure Flags where
  acc : Fin 4
  creat : Bool
  append : Bool

namespace Flags

def oflags (fl : Flags) : ℤ := fl.acc.val + (if fl.creat then 0x100 else 0) + (if fl.append then 0x400 else 0)

def mode (fl : Flags) : ℕ :=
  (if fl.acc = 0 ∨ fl.acc = 2 then 1 else 0) + (if fl.acc = 1 ∨ fl.acc = 2 then 2 else 0) + if fl.append then 4 else 0

/-- The flags that `do_open` handles as they are meant. -/
def Served (fl : Flags) : Prop :=
  fl.acc = 0 ∧ fl.append = false ∨ fl.acc = 2 ∨ fl.acc = 1 ∧ fl.creat = false ∧ fl.append = false

end Flags

/-- The path resolved as the flags ask. -/
def Resolves (w : World) (pid : ℕ) (path : CStr) (fl : Flags) (env : Env) (res : Except Failure VPtr) (fs : Fs) : Prop :=
  openNamev (w.proc pid).cwd path (if fl.creat then oCreat else 0) env.memory w.fs = .ok res fs

/-- The lowest free descriptor is bound to a new file; nothing else changes but the file system. -/
def OpenSuccess (w : World) (pid : ℕ) (path : CStr) (fl : Flags) (env : Env) (r : ℤ) (w' : World) : Prop :=
  ∃ (i : Fin nFiles) (f : ℕ) (vn : VPtr), r = i ∧ w.LowestFree pid i ∧ w.file f = none ∧ Resolves w pid path fl env (.ok vn) w'.fs ∧
    w'.slot = update w.slot (pid, i) (some f) ∧
    w'.file = update w.file f (some ⟨0, fl.mode, 1, some vn⟩)

/-- No descriptor and no count changes. -/
def OpenFailure (w : World) (r : ℤ) (w' : World) : Prop :=
  r < 0 ∧ w'.slot = w.slot ∧ w'.count = w.count ∧ w'.fs.refs = w.fs.refs

section Contract

variable {path : CStr} {fl : Flags} {env : Env}

theorem oddFlags_iff : OddFlags fl.oflags ↔ fl.acc = 3 ∨ fl.acc = 1 ∧ (fl.creat = true ∨ fl.append = true) := by
  obtain ⟨acc, creat, append⟩ := fl
  unfold OddFlags Flags.oflags
  revert acc creat append
  decide

theorem Flags.Served.append (h : fl.Served) (h0 : fl.acc = 0) : fl.append = false := by
  rcases h with h | h | h
  · exact h.2
  · rw [h0] at h
    cases h
  · exact h.2.2

/-- The errors that the resolution of a path gives. -/
def Errno.OfPath (e : Errno) : Prop := e = .enoent ∨ e = .enotdir ∨ e = .enametoolong

/-- The computation gives no other errors. -/
def PathErrs {α ε : Type} (err : ε → Errno) (m : FsM (Except ε α)) : Prop :=
  ∀ fs e fs', m fs = .ok (.error e) fs' → (err e).OfPath

namespace PathErrs

variable {α β ε δ : Type} {err : ε → Errno} {err' : δ → Errno}

theorem error {e : ε} (h : (err e).OfPath) : PathErrs err (pure (.error e) : FsM (Except ε α)) := by
  intro fs e' fs' he
  cases he
  exact h

theorem bind {m : FsM β} {k : β → FsM (Except ε α)} (h : ∀ b, PathErrs err (k b)) : PathErrs err (m >>= k) := by
  intro fs e fs' he
  obtain ⟨b, fs1, -, he⟩ := bind_ok_iff.1 he
  exact h b _ _ _ he

/-- What follows may hand on the error. -/
theorem andThen {m : FsM (Except ε β)} {k : Except ε β → FsM (Except δ α)} (hm : PathErrs err m)
    (herr : ∀ e, (err e).OfPath → PathErrs err' (k (.error e))) (hok : ∀ b, PathErrs err' (k (.ok b))) :
    PathErrs err' (m >>= k) := by
  intro fs e fs' he
  obtain ⟨x, fs1, hx, he⟩ := bind_ok_iff.1 he
  cases x with
  | error e' => exact herr e' (hm _ _ _ hx) _ _ _ he
  | ok b => exact hok b _ _ _ he

end PathErrs

theorem lookup_errs (dir : VPtr) (name : CStr) : PathErrs id (lookup dir name) := by
  refine .bind fun v => ?_
  split
  · exact .error (.inr (.inl rfl))
  refine .bind fun entry => ?_
  cases findEntry entry name with
  | none => exact .error (.inl rfl)
  | some i => exact .bind fun _ => nofun

theorem lookupPiece_errs (dir : VPtr) (piece : CStr) : PathErrs id (lookupPiece dir piece) := by
  unfold lookupPiece
  split_ifs
  · nofun
  · exact .error (.inr (.inr rfl))
  · exact lookup_errs dir piece

theorem walkLoop_errs (dir : VPtr) (seen chars : CStr) : PathErrs id (walkLoop dir seen chars) := by
  induction chars generalizing dir seen with
  | nil => nofun
  | cons c rest ih =>
    unfold walkLoop
    split_ifs
    · exact (lookupPiece_errs dir seen).andThen (fun _ => .error) fun p => .bind fun _ => ih p []
    · exact ih dir _

theorem dirNamev_errs (cwd : VPtr) (path : CStr) : PathErrs Failure.errno (dirNamev cwd path) := by
  have hfrom : ∀ dir fName, PathErrs Failure.errno (dirNamevFrom path dir fName) := by
    intro dir fName
    unfold dirNamevFrom
    dsimp only
    split
    · exact .error (.inr (.inr rfl))
    split
    · exact .bind fun _ => nofun
    · refine (walkLoop_errs _ _ _).andThen (fun e he => .error he) fun b => ?_
      exact (lookupPiece_errs _ _).andThen (fun e he => .error he) fun _ => nofun
  unfold dirNamev
  split_ifs
  · exact .error (.inr (.inr rfl))
  · nofun
  · have hstart : PathErrs id (startDir cwd (finalPath path)) := by
      unfold startDir
      split_ifs
      · nofun
      · exact (lookup_errs _ _).andThen (fun _ => .error) fun _ => nofun
      · nofun
    exact hstart.andThen (fun e he => .error he) fun b => hfrom b.1 b.2

theorem openNamev_errs (cwd : VPtr) (flag : ℤ) (memory : Bool) :
    PathErrs Failure.errno (openNamev cwd path flag memory) := by
  have hlookup : ∀ dir name, PathErrs Failure.errno (do return (← lookup dir name).mapError (⟨·, true⟩)) :=
    fun dir name => (lookup_errs dir name).andThen (fun e he => .error he) fun _ => nofun
  unfold openNamev
  split_ifs
  · exact .error (.inr (.inr rfl))
  · unfold openCreate
    split_ifs
    · refine .bind fun v => ?_
      split_ifs
      · exact .error (.inr (.inl rfl))
      · nofun
    · nofun
    refine (dirNamev_errs cwd path).andThen (fun e he => .error he) fun dir => .bind fun _ => .bind fun v => ?_
    split_ifs
    · exact .error (.inr (.inl rfl))
    refine .bind fun x => ?_
    cases x with
    | error e => nofun
    | ok vn => exact .bind fun _ => nofun
  · unfold openLookup
    split_ifs
    · exact hlookup cwd path
    · refine (dirNamev_errs cwd path).andThen (fun e _ => ?_) fun dir => .bind fun _ => hlookup dir _
      nofun

/-- A file that is kept without a descriptor is no failure. -/
theorem grown_count_ne (hf : ∀ f, w.allocs ≤ f → w.file f = none) {x : File} (hx : w'.file w.allocs = some x)
    (hcount : x.refcount = 1) : w'.count ≠ w.count := by
  intro h
  have := congrFun h w.allocs
  simp [World.count, hx, hcount, hf _ (le_refl _)] at this

/-- Where the contract is kept, there is a free descriptor. -/
theorem OpenContract.free (hf : ∀ f, w.allocs ≤ f → w.file f = none) (hodd : ¬ OddFlags fl.oflags)
    {fd : ℤ} (hfd : w.EmptyFd pid fd) {res : Except Failure VPtr} {fs : Fs}
    (hnamev : openNamev (w.proc pid).cwd path (openFlag fl.oflags) env.memory w.fs = .ok res fs)
    (hend : OpenEnds w pid fd fl.oflags env fs r w' res)
    (hres : OpenSuccess w pid path fl env r w' ∨ OpenFailure w r w')
    (hemfile : fl.acc ≠ 3 → (∀ i, w.slot (pid, i) ≠ none) → r = -Errno.emfile.code) :
    ∃ i : Fin nFiles, fd = i ∧ w.LowestFree pid i := by
  refine hfd.resolve_left fun ⟨hfd, hfull⟩ => ?_
  have hr := hemfile (fun h3 => hodd (oddFlags_iff.2 (.inl h3))) hfull
  cases res with
  | error e =>
    obtain ⟨fs', -, he, -⟩ := hend
    rw [hr] at he
    rcases openNamev_errs _ _ _ _ _ _ hnamev with h | h | h <;> rw [h] at he <;> exact absurd he (by decide)
  | ok vn =>
    obtain ⟨v, -, hend⟩ := hend
    split at hend
    · obtain ⟨fs', -, he, -⟩ := hend
      rw [hr] at he
      exact absurd he (by decide)
    obtain ⟨-, -, rfl⟩ := hend
    rcases hres with ⟨i, _, _, hi, -⟩ | ⟨-, -, hcount, -⟩
    · rw [hr] at hi
      simp only [Errno.code] at hi
      omega
    · exact grown_count_ne hf (update_self ..) rfl hcount

end Contract

/-! A kernel with no open file. -/

def booted : World where
  fs := mounted
  file _ := none
  allocs := 0
  proc _ := ⟨fun _ => none, rootVn⟩

end Weenix.Vfs
