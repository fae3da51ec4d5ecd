import Weenix.Lib.SlotScan
import Weenix.Proofs.RamfsMap
import Weenix.Proofs.VfsIo

/-! Listing a directory by `do_getdent` while names are made and removed in it. -/

namespace Weenix.Vfs

open Function Exec Fs

open Runs (Run)
open SlotScan (OneSlot)

/-! ### What a call changes in a directory that is in core -/

section Tables

variable {fs fs' : Fs} {p dir : VPtr} {e e₀ : ℕ → Dirent} {i n ino : ℕ} {name : CStr}

section
variable (he : fs.Dir p e)
include he

/-- The table of one directory changes in one entry. -/
theorem Fs.Dir.changed {x : Dirent} {nd nd' : Node} (hvn : fs'.vnodes = fs.vnodes)
    (hd : fs.node n = some nd) (hm : nd.mem = .dir e₀) (hm' : nd'.mem = .dir (update e₀ i x))
    (hn : fs'.node = update fs.node n (some nd')) : ∃ e', fs'.Dir p e' ∧ OneSlot e e' := by
  have hp : fs'.Points p := by
    rw [Fs.Points, hvn]
    exact he.points
  obtain ⟨ndp, hndp, hme⟩ := he.node
  by_cases hpn : p.vno = n
  · subst hpn
    rw [hd] at hndp
    cases hndp
    rw [hm] at hme
    cases hme
    exact ⟨_, dir_iff.2 ⟨hp, nd', by rw [hn, update_self], hm'⟩, .update _ _ _⟩
  · exact ⟨e, dir_iff.2 ⟨hp, ndp, by rw [hn, update_of_ne hpn, hndp], hme⟩, .refl e⟩

theorem Fs.Dir.enter (hv : fs.Valid) (hd : fs.Dir dir e₀) :
    ∃ e', (fs.enter dir.vno i ino name).Dir p e' ∧ OneSlot e e' := by
  obtain ⟨nd, hnd, hm⟩ := hd.node
  obtain ⟨-, hvn, hn⟩ := enter_spec hv hnd hm i ino name
  exact he.changed hvn hnd hm rfl hn

theorem Fs.Dir.leave (hv : fs.Valid) (hd : fs.Dir dir e₀) :
    ∃ e', (fs.leave dir.vno i).Dir p e' ∧ OneSlot e e' := by
  obtain ⟨nd, hnd, hm⟩ := hd.node
  obtain ⟨-, hvn, hn⟩ := leave_spec hv hnd hm i
  exact he.changed hvn hnd hm rfl hn

theorem Fs.Dir.relink {k : ℤ} (hv : fs.Valid) (hl : (fs.node n).isSome) : (fs.relink n k).Dir p e := by
  obtain ⟨nd, hnd⟩ := Option.isSome_iff_exists.1 hl
  obtain ⟨-, hvn, hn⟩ := relink_spec hv hnd k
  obtain ⟨ndp, hndp, hme⟩ := he.node
  have hp : (fs.relink n k).Points p := by
    rw [Fs.Points, hvn]
    exact he.points
  by_cases hpn : p.vno = n
  · subst hpn
    rw [hnd] at hndp
    cases hndp
    exact dir_iff.2 ⟨hp, { nd with links := nd.links + k }, by rw [hn, update_self], hme⟩
  · exact dir_iff.2 ⟨hp, ndp, by rw [hn, update_of_ne hpn, hndp], hme⟩

/-- A reference is dropped that is not the last one to this directory. -/
theorem Fs.Dir.release (hv : fs.Valid) (hr : 0 < fs.refs n) (hmore : p.vno = n → 1 < fs.refs n) :
    (fs.release n).Dir p e := by
  obtain ⟨ndp, hndp, hme⟩ := he.node
  refine dir_iff.2 ⟨(points_release hv).2 ⟨he.points, hmore⟩, ndp, ?_, hme⟩
  by_cases hdying : fs.Dying n
  · have hpn : p.vno ≠ n := by
      intro hpn
      have := hmore hpn
      rw [hdying.1] at this
      omega
    rw [release_node_of_dying hdying, update_of_ne hpn, hndp]
  · rw [release_node_of_not hv hr hdying, hndp]

theorem Fs.Dir.remove (hv : fs.Valid) (hd : fs.Dir dir e₀) (hl : (fs.node n).isSome) :
    ∃ e', (fs.remove dir.vno i n).Dir p e' ∧ OneSlot e e' := by
  have hv0 : (fs.grab n).Valid := hv.grab
  obtain ⟨e', he', hone⟩ := he.grab.leave (i := i) hv0 (hd.grab (n := n))
  obtain ⟨nd, hnd, hm⟩ := (hd.grab (n := n)).node
  obtain ⟨hv1, hvn1, hn1⟩ := leave_spec hv0 hnd hm i
  have hrefs : ((fs.grab n).leave dir.vno i).refs n = fs.refs n + 1 := by
    rw [refs_congr hvn1, grab_refs hl, update_self]
  obtain ⟨ndn, hndn⟩ := hv1.live (by rw [hrefs]; omega)
  obtain ⟨hv2, hvn2, -⟩ := relink_spec hv1 hndn (-1)
  have hrefs2 : (((fs.grab n).leave dir.vno i).relink n (-1)).refs n = fs.refs n + 1 := by
    rw [refs_congr hvn2, hrefs]
  refine ⟨e', (he'.relink hv1 (by rw [hndn]; rfl)).release hv2 (by rw [hrefs2]; omega) fun hpn => ?_, hone⟩
  have := he.points.refs_pos hv
  rw [hpn] at this
  omega

theorem Fs.Dir.grab_release (hv : fs.Valid) (hl : (fs.node n).isSome) : ((fs.grab n).release n).Dir p e := by
  have hrefs : (fs.grab n).refs n = fs.refs n + 1 := by rw [grab_refs hl, update_self]
  refine he.grab.release hv.grab (by rw [hrefs]; omega) fun hpn => ?_
  have := he.points.refs_pos hv
  rw [hpn] at this
  omega

end

/-- A call does not drop the last reference to the vnode. -/
def Call.Spares (c : Call) (fs : Fs) (p : VPtr) : Prop := ∀ q, c = .vput q → q.vno = p.vno → 1 < fs.refs p.vno

theorem Fs.Room.enter {memory : Bool} {mem : Mem} (hr : fs.Room e₀ memory i ino) (he : fs.Dir p e) (hv : fs.Valid)
    (hd : fs.Dir dir e₀) : ∃ e', ((fs.alloc ino mem).enter dir.vno i ino name).Dir p e' ∧ OneSlot e e' :=
  (he.alloc hr.2.1).enter (alloc_spec hv hr.2.1 mem).1 (hd.alloc hr.2.1)

/-- Each call changes at most one entry of a directory that stays in core. -/
theorem exec_oneSlot {c : Call} {r : Result} (hv : fs.Valid) (hc : c.exec fs = .ok r fs') (he : fs.Dir p e)
    (hspare : c.Spares fs p) : ∃ e', fs'.Dir p e' ∧ OneSlot e e' := by
  cases c with
  | create dir name memory =>
    obtain ⟨r, hr, -⟩ := bind_pure_iff.1 hc
    obtain ⟨e₀, hd, -, ⟨-, -, rfl⟩ | ⟨i, ino, hroom, -, rfl⟩⟩ := (ramfsCreate_ok hv).1 hr
    · exact ⟨e, he, .refl e⟩
    · exact (he.alloc hroom.2.1).grab.enter (alloc_spec hv hroom.2.1 _).1.grab (hd.alloc hroom.2.1).grab
  | mknod dir name mode devid memory =>
    obtain ⟨r, hr, -⟩ := bind_pure_iff.1 hc
    obtain ⟨e₀, hd, -, hr⟩ := (ramfsMknod_ok hv).1 hr
    cases hmem : specialMem mode devid with
    | none =>
      rw [hmem] at hr
      obtain ⟨-, -, rfl⟩ := hr
      exact ⟨e, he, .refl e⟩
    | some mem =>
      rw [hmem] at hr
      obtain ⟨-, -, rfl⟩ | ⟨i, ino, hroom, -, rfl⟩ := hr
      · exact ⟨e, he, .refl e⟩
      · exact hroom.enter he hv hd
  | mkdir dir name memory =>
    obtain ⟨r, hr, -⟩ := bind_pure_iff.1 hc
    obtain ⟨e₀, hd, -, ⟨-, -, rfl⟩ | ⟨i, ino, hroom, -, rfl⟩⟩ := (ramfsMkdir_ok hv).1 hr
    · exact ⟨e, he, .refl e⟩
    have hdir : ∃ e', ((fs.alloc ino (.dir noEntries)).enter dir.vno i ino name).Dir p e' ∧ OneSlot e e' :=
      hroom.enter he hv hd
    obtain ⟨e', ⟨hp, j, hj, hm⟩, hone⟩ := hdir
    exact ⟨e', ⟨hp, j, by rw [Fs.setInode]; simpa [he.ne_freeInode hroom.2.1] using hj, hm⟩, hone⟩
  | link old dir name =>
    obtain ⟨r, hr, -⟩ := bind_pure_iff.1 hc
    obtain ⟨hp, e₀, hd, -, ⟨-, -, rfl⟩ | ⟨i, -, -, rfl⟩⟩ := (ramfsLink_ok hv).1 hr
    · exact ⟨e, he, .refl e⟩
    obtain ⟨nd, hnd, hm⟩ := hd.node
    obtain ⟨hv1, hvn, -⟩ := enter_spec hv hnd hm i old.vno name
    have hdir : ∃ e', (fs.enter dir.vno i old.vno name).Dir p e' ∧ OneSlot e e' := he.enter hv hd
    obtain ⟨e', he', hone⟩ := hdir
    obtain ⟨ndo, hndo⟩ := hv1.live (by rw [refs_congr hvn]; exact hp.refs_pos hv)
    exact ⟨e', he'.relink hv1 (by rw [hndo]; rfl), hone⟩
  | unlink dir name =>
    obtain ⟨r, hr, -⟩ := bind_pure_iff.1 hc
    obtain ⟨e₀, i, nd, hd, -, hnd, -, -, rfl⟩ := (ramfsUnlink_ok hv).1 hr
    exact he.remove hv hd (by rw [hnd]; rfl)
  | rmdir dir name =>
    obtain ⟨r, hr, -⟩ := bind_pure_iff.1 hc
    obtain ⟨-, e₀, hd, ⟨-, -, rfl⟩ | ⟨i, nd, -, hnd, hr⟩⟩ := (ramfsRmdir_ok hv).1 hr
    · exact ⟨e, he, .refl e⟩
    have hl : (fs.node (e₀ i).ino).isSome := by rw [hnd]; rfl
    obtain ⟨-, -, rfl⟩ | ⟨e', -, ⟨-, -, rfl⟩ | ⟨-, -, rfl⟩⟩ := hr
    · exact ⟨e, he.grab_release hv hl, .refl e⟩
    · exact he.remove hv hd hl
    · exact ⟨e, he.grab_release hv hl, .refl e⟩
  | lookup dir name =>
    obtain ⟨r, hr, -⟩ := bind_pure_iff.1 hc
    obtain ⟨e₀, -, ⟨-, -, rfl⟩ | ⟨i, -, -, -, rfl⟩⟩ := (ramfsLookup_ok hv).1 hr
    · exact ⟨e, he, .refl e⟩
    · exact ⟨e, he.grab, .refl e⟩
  | vref q =>
    obtain ⟨_, hr, -⟩ := bind_pure_iff.1 hc
    obtain ⟨-, rfl⟩ := (vref_ok hv).1 hr
    exact ⟨e, he.grab, .refl e⟩
  | vput q =>
    obtain ⟨_, hr, -⟩ := bind_pure_iff.1 hc
    obtain ⟨hq, rfl⟩ := (vput_ok hv).1 hr
    refine ⟨e, he.release hv (hq.refs_pos hv) fun hpq => ?_, .refl e⟩
    rw [← hpq]
    exact hspare q rfl hpq.symm

end Tables

/-! ### Reading an entry -/

section Getdent

variable {w w' : World} {fs : Fs} {pid : ℕ} {fd : ℤ} {vn : VPtr} {e : ℕ → Dirent} {s : SlotScan.State Dirent}

def InUse (x : Dirent) : Prop := x.name ≠ []

/-- The descriptor is open on the directory, whose entries and whose position are as `s` says. -/
structure Scan (pid : ℕ) (fd : ℤ) (vn : VPtr) (w : World) (s : SlotScan.State Dirent) : Prop where
  sound : Sound w.fs
  dir : w.fs.Dir vn s.table
  file : ∃ f x, w.desc pid fd = some f ∧ w.file f = some x ∧ x.mode < 8 ∧ 0 < x.refcount ∧ x.vnode = some vn ∧
    x.pos = s.pos * direntSize
  pos_le : s.pos ≤ maxDirent

def entryFrom (e : ℕ → Dirent) (pos : ℕ) : Option ℕ := (List.range maxDirent).find? fun j => pos ≤ j ∧ (e j).name ≠ []

theorem ramfsReaddir_at (hv : fs.Valid) (he : fs.Dir vn e) (pos : ℕ) : ramfsReaddir vn (pos * direntSize) fs =
    .ok (match entryFrom e pos with
      | some j => (direntSize + (j * direntSize - pos * direntSize), some (e j))
      | none => (0, none)) fs := by
  obtain ⟨nd, hnd, hm⟩ := he.node
  obtain ⟨v, hd, hmode⟩ := deref_of_points hv he.points hnd
  have hk : kassert (v.mode = .dir) fs = .ok () fs := kassert_ok.2 ⟨by rw [hmode, hm]; rfl, rfl⟩
  have hmod : kassert ((pos * direntSize : ℤ) % direntSize = 0) fs = .ok () fs :=
    kassert_ok.2 ⟨Int.mul_emod_left _ _, rfl⟩
  have hents : dirents vn fs = .ok e fs := dirents_ok.2 ⟨he, rfl⟩
  have hfind : ((List.range maxDirent).find? fun (j : ℕ) => (pos * direntSize : ℤ) ≤ j * direntSize ∧ (e j).name ≠ []) =
      entryFrom e pos := by
    congr 1
    funext j
    have : ((pos : ℤ) * direntSize ≤ j * direntSize) ↔ pos ≤ j := by
      unfold direntSize
      omega
    simp [this]
  unfold ramfsReaddir
  rw [bind_ok _ hd, bind_ok _ hk, bind_ok _ hmod, bind_ok _ hents, if_neg (by unfold direntSize; omega)]
  simp only [hfind]
  cases entryFrom e pos with
  | none => rfl
  | some j => rfl

theorem entryFrom_some {pos j : ℕ} (h : entryFrom e pos = some j) :
    j < maxDirent ∧ pos ≤ j ∧ InUse (e j) ∧ ∀ i, pos ≤ i → i < j → ¬ InUse (e i) := by
  obtain ⟨hj, hlt, hfirst⟩ := List.find?_range_eq_some.1 h
  have hj : pos ≤ j ∧ (e j).name ≠ [] := by simpa using hj
  exact ⟨List.mem_range.1 hlt, hj.1, hj.2, fun i hi hij huse => huse (by simpa [hi] using hfirst i hij)⟩

theorem entryFrom_none {pos : ℕ} (h : entryFrom e pos = none) : SlotScan.Done maxDirent InUse ⟨e, pos⟩ := by
  intro j hj hpos huse
  exact absurd (decide_eq_true ⟨hpos, huse⟩) (List.find?_eq_none.1 h j (List.mem_range.2 hj))

/-- A call reads the next entry in use, or there is none. -/
theorem doGetdent_scan (h : Scan pid fd vn w s) : ∃ w',
    (∃ j, entryFrom s.table s.pos = some j ∧ doGetdent pid fd w = .ok (direntTSize, some (s.table j)) w' ∧
      Scan pid fd vn w' ⟨s.table, j + 1⟩) ∨
    (entryFrom s.table s.pos = none ∧ doGetdent pid fd w = .ok (0, none) w' ∧ Scan pid fd vn w' s) := by
  obtain ⟨hs, he, ⟨f, x, hfd, hx, hmode, href, hvn, hpos⟩, hle⟩ := h
  obtain ⟨nd, hnd, hm⟩ := he.node
  obtain ⟨v, hd, hvm⟩ := deref_of_points hs.valid he.points hnd
  have hsane : x.Sane := ⟨hmode, by rw [hpos]; unfold direntSize; omega⟩
  have hne : x.vnode ≠ none := by rw [hvn]; simp
  have hfref : fref f w = .ok () (w.setFile f (some { x with refcount := x.refcount + 1 })) :=
    fref_ok.2 ⟨x, hx, hsane, fun _ => hne, rfl⟩
  have hfput : fput f (w.setFile f (some { x with refcount := x.refcount + 1 })) = .ok () w := by
    have := fput_back (w := w) (f := f) (y := { x with refcount := x.refcount + 1 }) ⟨hmode, hsane.pos⟩ hne
      (by simp only; omega)
    simpa only [Nat.add_sub_cancel, setFile_self hx] using this
  have hfile : fileVnode f w = .ok (x, vn, v) w := fileVnode_ok.2 ⟨hx, hvn, (need_ok.1 hd).1, rfl⟩
  have hread : onFs (ramfsReaddir vn x.pos) w = .ok _ w := onFs_ok.2 ⟨w.fs, hpos ▸ ramfsReaddir_at hs.valid he s.pos, rfl⟩
  have hscan : ∀ {pos : ℕ} {y : ℤ}, pos ≤ maxDirent → toInt y = pos * direntSize →
      Scan pid fd vn (w.setFile f (some { x with pos := toInt y })) ⟨s.table, pos⟩ :=
    fun hle hy => ⟨hs, he, ⟨f, _, hfd, update_self .., hmode, href, hvn, hy⟩, hle⟩
  have hrun : ∀ {ret entry}, onFs (ramfsReaddir vn x.pos) w = .ok (ret, entry) w → doGetdent pid fd w =
      .ok (if 0 < ret then direntTSize else 0, entry) (w.setFile f (some { x with pos := toInt (x.pos + ret) })) := by
    intro ret entry hread
    rw [doGetdent, bind_ok _ (checkFd_file hfd)]
    simp only
    rw [getdentFile, bind_ok _ hfref, bind_ok _ hfput, bind_ok _ hfile]
    simp only
    rw [if_neg (by rw [hvm, hm]; exact not_not.2 rfl), bind_ok _ hread]
    rfl
  cases hfrom : entryFrom s.table s.pos with
  | some j =>
    obtain ⟨hj, hsj, -⟩ := entryFrom_some hfrom
    rw [hfrom] at hread
    have hret := hrun hread
    rw [if_pos (by rw [hpos]; unfold direntSize; omega)] at hret
    refine ⟨_, .inl ⟨j, rfl, hret, hscan hj ?_⟩⟩
    unfold maxDirent at hj
    rw [hpos, toInt_of_lt] <;> (unfold direntSize; push_cast; omega)
  | none =>
    rw [hfrom] at hread
    have hret := hrun hread
    refine ⟨_, .inr ⟨rfl, hret, hscan hle ?_⟩⟩
    unfold maxDirent at hle
    rw [hpos, toInt_of_lt] <;> (unfold direntSize; omega)

/-! ### The whole scan -/

/-- A call of `do_getdent` with its results, or a call of the file system. -/
inductive ScanEvent
  | getdent (ret : ℤ) (entry : Option Dirent)
  | change (c : Call)

def ScanEvent.entry : ScanEvent → Option Dirent
  | getdent _ entry => entry
  | change _ => none

/-- The calls of the others use names of at most 27 bytes and leave the reference of the open file. -/
def ScanStep (pid : ℕ) (fd : ℤ) (vn : VPtr) (w : World) : ScanEvent → World → Prop
  | .getdent ret entry, w' => doGetdent pid fd w = .ok (ret, entry) w'
  | .change c, w' => c.NameOk ∧ c.Spares w.fs vn ∧ ∃ r, onFs c.exec w = .ok r w'

/-- The directory has been opened, and nothing has been read. -/
def OpenedDir (pid : ℕ) (fd : ℤ) (vn : VPtr) (w : World) : Prop := ∃ e, Scan pid fd vn w ⟨e, 0⟩

def Listed (vn : VPtr) (x : Dirent) (w : World) : Prop := InUse x ∧ ∃ e, w.fs.Dir vn e ∧ ∃ j < maxDirent, e j = x

theorem scan_step {ev : ScanEvent} (h : Scan pid fd vn w s) (hs : ScanStep pid fd vn w ev w') :
    ∃ s', Scan pid fd vn w' s' ∧ SlotScan.Step maxDirent InUse s ev.entry s' := by
  cases ev with
  | getdent ret entry =>
    obtain ⟨w1, ⟨j, hfrom, hrun, hscan⟩ | ⟨hfrom, hrun, hscan⟩⟩ := doGetdent_scan h
    · obtain ⟨hj, hle, huse, hfirst⟩ := entryFrom_some hfrom
      cases hrun.symm.trans hs
      exact ⟨_, hscan, .read j hj hle huse hfirst⟩
    · cases hrun.symm.trans hs
      exact ⟨_, hscan, .stop (entryFrom_none hfrom)⟩
  | change c =>
    obtain ⟨hname, hspare, r, hr⟩ := hs
    obtain ⟨fs', hc, rfl⟩ := onFs_ok.1 hr
    obtain ⟨e', he', hone⟩ := exec_oneSlot h.sound.valid hc h.dir hspare
    exact ⟨⟨e', s.pos⟩, ⟨(exec_step h.sound hname hc).1, he', h.file, h.pos_le⟩, .change e' hone⟩

theorem Scan.once {x : Dirent} (h : Scan pid fd vn w s) (hx : Listed vn x w) : SlotScan.Once maxDirent s x := by
  obtain ⟨huse, e, he, j, hj, rfl⟩ := hx
  obtain rfl := he.inj h.dir
  obtain ⟨nd, hnd, hm⟩ := h.dir.node
  refine ⟨j, ⟨hj, rfl⟩, ?_⟩
  rintro k ⟨hk, hkj⟩
  have huse' : InUse (s.table k) := hkj ▸ huse
  exact (h.sound.dir hnd hm).distinct k hk j hj (congrArg Dirent.name hkj) huse'

/-- In any interleaving, each call comes back with an entry that is in the directory or with 0; and
when it comes back with 0, each entry that was there all the time has been returned once. -/
theorem getdent_lists (h : OpenedDir pid fd vn w) : ∀ es w',
    (Run (ScanStep pid fd vn) w es w' → ∃ ret entry w'', doGetdent pid fd w' = .ok (ret, entry) w'' ∧
      (ret = direntTSize ∧ (∃ x, entry = some x ∧ Listed vn x w') ∨ ret = 0 ∧ entry = none)) ∧
    ∀ x, Listed vn x w → Run (fun a ev b => ScanStep pid fd vn a ev b ∧ Listed vn x b) w es w' →
      ∀ entry w'', doGetdent pid fd w' = .ok (0, entry) w'' → (es.map ScanEvent.entry).count (some x) = 1 := by
  obtain ⟨e, h⟩ := h
  intro es w'
  constructor
  · intro hrun
    obtain ⟨s, hs, -⟩ := hrun.simulate ScanEvent.entry h fun _ _ _ _ hs hstep => scan_step hs hstep
    obtain ⟨w'', ⟨j, hfrom, hret, -⟩ | ⟨-, hret, -⟩⟩ := doGetdent_scan hs
    · obtain ⟨hj, -, huse, -⟩ := entryFrom_some hfrom
      exact ⟨_, _, w'', hret, .inl ⟨rfl, _, rfl, huse, s.table, hs.dir, j, hj, rfl⟩⟩
    · exact ⟨_, _, w'', hret, .inr ⟨rfl, rfl⟩⟩
  · intro x hx hrun entry w'' hret
    obtain ⟨s, hs, hrun'⟩ : ∃ s, Scan pid fd vn w' s ∧
        Run (fun s o s' => SlotScan.Step maxDirent InUse s o s' ∧ SlotScan.Once maxDirent s' x) ⟨e, 0⟩
          (es.map ScanEvent.entry) s := by
      refine hrun.simulate ScanEvent.entry h fun a ev b s hs hstep => ?_
      obtain ⟨s', hs', hstep'⟩ := scan_step hs hstep.1
      exact ⟨s', hs', hstep', hs'.once hstep.2⟩
    obtain ⟨w₁, ⟨j, -, hret', -⟩ | ⟨hfrom, -, -⟩⟩ := doGetdent_scan hs
    · cases hret'.symm.trans hret
    · exact SlotScan.count_eq_one (h.once hx) rfl hx.1 hrun' (entryFrom_none hfrom)

def rootOpen : World where
  fs := mounted
  file := fun f => if f = 0 then some ⟨0, 1, 1, some rootVn⟩ else none
  allocs := 1
  proc := fun _ => ⟨fun fd => if fd = 0 then some 0 else none, rootVn⟩

theorem rootOpen_opened : OpenedDir 0 0 rootVn rootOpen :=
  ⟨dotEntries 0 0, mounted_sound, dir_iff.2 ⟨⟨_, rfl, rfl⟩, ⟨.dir (dotEntries 0 0), 64, 1⟩, rfl, rfl⟩,
    ⟨0, ⟨0, 1, 1, some rootVn⟩, rfl, rfl, by decide, by decide, rfl, rfl⟩, Nat.zero_le _⟩

def rootEvents : List ScanEvent :=
  [.getdent 40 (some ⟨0, [dot]⟩), .change (.create rootVn [97] true), .getdent 40 (some ⟨0, [dot, dot]⟩),
    .getdent 40 (some ⟨1, [97]⟩)]

theorem getdent_lists_root : ∃ w', Run (fun a ev b => ScanStep 0 0 rootVn a ev b ∧ Listed rootVn ⟨0, [dot]⟩ b)
    rootOpen rootEvents w' ∧ (rootEvents.map ScanEvent.entry).count (some ⟨0, [dot]⟩) = 1 := by
  have hlisted : ∀ {w : World}, (∃ e, w.fs.Dir rootVn e ∧ e 0 = ⟨0, [dot]⟩) → Listed rootVn ⟨0, [dot]⟩ w :=
    fun ⟨e, hd, he⟩ => ⟨by simp [InUse], e, hd, 0, by decide, he⟩
  obtain ⟨w₁, w₂, w₃, w₄, w₅, h₁, h₂, h₃, h₄, h₅, l₁, l₂, l₃, l₄⟩ : ∃ w₁ w₂ w₃ w₄ w₅,
      ScanStep 0 0 rootVn rootOpen (.getdent 40 (some ⟨0, [dot]⟩)) w₁ ∧
      ScanStep 0 0 rootVn w₁ (.change (.create rootVn [97] true)) w₂ ∧
      ScanStep 0 0 rootVn w₂ (.getdent 40 (some ⟨0, [dot, dot]⟩)) w₃ ∧
      ScanStep 0 0 rootVn w₃ (.getdent 40 (some ⟨1, [97]⟩)) w₄ ∧ doGetdent 0 0 w₄ = .ok (0, none) w₅ ∧
      Listed rootVn ⟨0, [dot]⟩ w₁ ∧ Listed rootVn ⟨0, [dot]⟩ w₂ ∧ Listed rootVn ⟨0, [dot]⟩ w₃ ∧
      Listed rootVn ⟨0, [dot]⟩ w₄ := by
    refine ⟨_, _, _, _, _, rfl, ⟨⟨by decide, by decide⟩, nofun, _, rfl⟩, rfl, rfl, rfl, ?_, ?_, ?_, ?_⟩
    all_goals exact hlisted ⟨_, ⟨⟨_, rfl, rfl⟩, _, rfl, rfl⟩, rfl⟩
  have hrun : Run (fun a ev b => ScanStep 0 0 rootVn a ev b ∧ Listed rootVn ⟨0, [dot]⟩ b) rootOpen rootEvents w₄ :=
    (((Run.nil.snoc ⟨h₁, l₁⟩).snoc ⟨h₂, l₂⟩).snoc ⟨h₃, l₃⟩).snoc ⟨h₄, l₄⟩
  refine ⟨w₄, hrun, ?_⟩
  exact (getdent_lists rootOpen_opened rootEvents w₄).2 _ (hlisted ⟨_, ⟨⟨_, rfl, rfl⟩, _, rfl, rfl⟩, rfl⟩) hrun _ _ h₅

end Getdent

end Weenix.Vfs
