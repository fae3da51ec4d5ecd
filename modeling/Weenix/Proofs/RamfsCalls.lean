import Weenix.Proofs.RamfsDisk

/-! The calls of ramfs: when each comes back, with which result and in which state. -/

namespace Weenix.Vfs

open Exec Fs

variable {fs fs' : Fs} {p dir old : VPtr} {name : CStr} {memory : Bool}

theorem deref_ok (hv : fs.Valid) {v : Vnode} (h : deref p fs = .ok v fs') :
    fs = fs' ∧ fs.Points p ∧ ∃ nd, fs.node p.vno = some nd ∧ v.mode = nd.mem.mode := by
  obtain ⟨hd, rfl⟩ := need_ok.1 h
  obtain ⟨hw, hid⟩ := deref_some.1 hd
  obtain ⟨-, -, i, hi, hm⟩ := hv.vnode hw
  exact ⟨rfl, ⟨v, hw, hid⟩, _, node_some.2 ⟨i, hi, rfl⟩, hm⟩

theorem deref_of_points (hv : fs.Valid) (hp : fs.Points p) {nd : Node} (hn : fs.node p.vno = some nd) :
    ∃ v, deref p fs = .ok v fs ∧ v.mode = nd.mem.mode := by
  obtain ⟨v, hw, hid⟩ := hp
  obtain ⟨-, -, i, hi, hm⟩ := hv.vnode hw
  obtain ⟨j, hj, rfl⟩ := node_some.1 hn
  obtain rfl : i = j := Option.some.inj (hi.symm.trans hj)
  exact ⟨v, need_ok.2 ⟨deref_some.2 ⟨hw, hid⟩, rfl⟩, hm⟩

namespace Fs

variable {e : ℕ → Dirent} {n : ℕ}

theorem Dir.points (h : fs.Dir p e) : fs.Points p := h.1

theorem Dir.node (h : fs.Dir p e) : ∃ nd, fs.node p.vno = some nd ∧ nd.mem = .dir e := (dir_iff.1 h).2

theorem Dir.grab (h : fs.Dir p e) : (fs.grab n).Dir p e := by
  rw [dir_iff, grab_node]
  exact ⟨h.points.grab, h.node⟩

/-- A new inode is not a directory that was there before. -/
theorem Dir.ne_freeInode (h : fs.Dir p e) (hf : fs.freeInode = some n) : p.vno ≠ n := by
  rintro rfl
  obtain ⟨-, i, hi, -⟩ := h
  rw [(freeInode_some hf).2] at hi
  cases hi

theorem Dir.alloc {mem : Mem} (h : fs.Dir p e) (hf : fs.freeInode = some n) : (fs.alloc n mem).Dir p e := by
  have hne := h.ne_freeInode hf
  obtain ⟨hp, j, hj, he⟩ := h
  exact ⟨hp, j, by simpa [Fs.alloc, setInode, hne] using hj, he⟩

def NoRoom (fs : Fs) (e : ℕ → Dirent) (memory : Bool) : Prop :=
  findEntry e [] = none ∨ fs.freeInode = none ∨ memory = false

/-- Entry `i` and inode `ino` are the first free ones. -/
def Room (fs : Fs) (e : ℕ → Dirent) (memory : Bool) (i ino : ℕ) : Prop :=
  findEntry e [] = some i ∧ fs.freeInode = some ino ∧ memory = true

end Fs

theorem newFile_ok (hv : fs.Valid) {α : Type} {mem : Mem} {finish : ℕ → ℕ → FsM α} {r : Except Errno α} :
    newFile dir name mem memory finish fs = .ok r fs' ↔ ∃ e, fs.Dir dir e ∧ findEntry e name = none ∧
      ((fs.NoRoom e memory ∧ r = .error .enospc ∧ fs = fs') ∨
        ∃ i ino a, fs.Room e memory i ino ∧ finish i ino (fs.alloc ino mem) = .ok a fs' ∧ r = .ok a) := by
  simp only [newFile, bind_ok_iff, freeEntry_ok hv]
  constructor
  · rintro ⟨_, _, ⟨e, he, hnew, rfl, rfl⟩, h⟩
    refine ⟨e, he, hnew, ?_⟩
    cases hf : findEntry e [] with
    | none =>
      rw [hf] at h
      obtain ⟨rfl, rfl⟩ := pure_ok_iff.1 h
      exact .inl ⟨.inl hf, rfl, rfl⟩
    | some i =>
      rw [hf] at h
      simp only [bind_ok_iff, ramfsAllocInode_ok] at h
      obtain ⟨_, _, ⟨hno, rfl, rfl⟩ | ⟨ino, hino, hm, rfl, rfl⟩, h⟩ := h
      · obtain ⟨rfl, rfl⟩ := pure_ok_iff.1 h
        exact .inl ⟨.inr hno, rfl, rfl⟩
      simp only [bind_ok_iff, pure_ok_iff] at h
      obtain ⟨a, _, ha, rfl, rfl⟩ := h
      exact .inr ⟨i, ino, a, ⟨hf, hino, hm⟩, ha, rfl⟩
  · rintro ⟨e, he, hnew, ⟨hno, rfl, rfl⟩ | ⟨i, ino, a, ⟨hf, hino, rfl⟩, ha, rfl⟩⟩
    · refine ⟨_, _, ⟨e, he, hnew, rfl, rfl⟩, ?_⟩
      cases hf : findEntry e [] with
      | none => rfl
      | some i =>
        simp only [bind_ok_iff, ramfsAllocInode_ok]
        refine ⟨none, fs, .inl ⟨?_, rfl, rfl⟩, rfl⟩
        rcases hno with h | h
        · rw [hf] at h
          cases h
        · exact h
    · refine ⟨_, _, ⟨e, he, hnew, rfl, rfl⟩, ?_⟩
      rw [hf]
      simp only [bind_ok_iff, ramfsAllocInode_ok]
      refine ⟨some ino, _, .inr ⟨ino, hino, trivial, rfl, rfl⟩, ?_⟩
      simp only [bind_ok_iff, pure_ok_iff]
      exact ⟨a, fs', ha, rfl, rfl⟩

theorem ramfsCreate_ok (hv : fs.Valid) {r : Except Errno VPtr} :
    ramfsCreate dir name memory fs = .ok r fs' ↔ ∃ e, fs.Dir dir e ∧ findEntry e name = none ∧
      ((fs.NoRoom e memory ∧ r = .error .enospc ∧ fs = fs') ∨
        ∃ i ino, fs.Room e memory i ino ∧ r = .ok ⟨ino, fs.allocs⟩ ∧
          ((fs.alloc ino (.data fun _ => 0)).grab ino).enter dir.vno i ino name = fs') := by
  rw [ramfsCreate, newFile_ok hv]
  refine exists_congr fun e => and_congr_right fun he => and_congr_right fun _ => or_congr_right ?_
  refine exists_congr fun i => exists_congr fun ino => ?_
  constructor
  · rintro ⟨a, hroom, h, rfl⟩
    obtain ⟨hv', -, hcore, -⟩ := alloc_spec hv hroom.2.1 (.data fun _ => 0)
    simp only [bind_ok_iff, vget_ok hv', setEntry_ok, pure_ok_iff] at h
    obtain ⟨_, _, ⟨-, rfl, rfl⟩, _, _, ⟨-, rfl⟩, rfl, rfl⟩ := h
    refine ⟨hroom, ?_, rfl⟩
    simp [Fs.ptr, Fs.alloc, Fs.setInode, hcore]
  · rintro ⟨hroom, rfl, rfl⟩
    obtain ⟨hv', -, hcore, -⟩ := alloc_spec hv hroom.2.1 (.data fun _ => 0)
    refine ⟨_, hroom, ?_, rfl⟩
    simp only [bind_ok_iff, vget_ok hv', setEntry_ok, pure_ok_iff]
    refine ⟨_, _, ⟨by simp [Fs.alloc, Fs.setInode], rfl, rfl⟩, (), _, ⟨⟨e, (he.alloc hroom.2.1).grab⟩, rfl⟩, ?_, rfl⟩
    simp [Fs.ptr, Fs.alloc, Fs.setInode, hcore]

theorem ramfsMknod_ok (hv : fs.Valid) {mode devid : ℕ} {r : Except Errno Unit} :
    ramfsMknod dir name mode devid memory fs = .ok r fs' ↔ ∃ e, fs.Dir dir e ∧ findEntry e name = none ∧
      match specialMem mode devid with
      | none => findEntry e [] = none ∧ r = .error .enospc ∧ fs = fs'
      | some mem => (fs.NoRoom e memory ∧ r = .error .enospc ∧ fs = fs') ∨
          ∃ i ino, fs.Room e memory i ino ∧ r = .ok () ∧ (fs.alloc ino mem).enter dir.vno i ino name = fs' := by
  unfold ramfsMknod
  cases specialMem mode devid with
  | none =>
    simp only [bind_ok_iff, freeEntry_ok hv]
    constructor
    · rintro ⟨_, _, ⟨e, he, hnew, rfl, rfl⟩, h⟩
      refine ⟨e, he, hnew, ?_⟩
      cases hf : findEntry e [] with
      | none =>
        rw [hf] at h
        obtain ⟨rfl, rfl⟩ := pure_ok_iff.1 h
        exact ⟨rfl, rfl, rfl⟩
      | some i =>
        rw [hf] at h
        cases h
    · rintro ⟨e, he, hnew, hf, rfl, rfl⟩
      refine ⟨_, _, ⟨e, he, hnew, rfl, rfl⟩, ?_⟩
      rw [hf]
      rfl
  | some mem =>
    rw [newFile_ok hv]
    refine exists_congr fun e => and_congr_right fun he => and_congr_right fun _ => or_congr_right ?_
    refine exists_congr fun i => exists_congr fun ino => ?_
    simp only [setEntry_ok]
    constructor
    · rintro ⟨a, hroom, ⟨-, rfl⟩, rfl⟩
      exact ⟨hroom, rfl, rfl⟩
    · rintro ⟨hroom, rfl, rfl⟩
      exact ⟨(), hroom, ⟨⟨e, he.alloc hroom.2.1⟩, rfl⟩, rfl⟩

theorem ramfsMkdir_ok (hv : fs.Valid) {r : Except Errno Unit} :
    ramfsMkdir dir name memory fs = .ok r fs' ↔ ∃ e, fs.Dir dir e ∧ findEntry e name = none ∧
      ((fs.NoRoom e memory ∧ r = .error .enospc ∧ fs = fs') ∨
        ∃ i ino, fs.Room e memory i ino ∧ r = .ok () ∧
          ((fs.alloc ino (.dir noEntries)).enter dir.vno i ino name).setInode ino
            (some ⟨2 * direntSize, ino, .dir (dotEntries ino dir.vno), 1⟩) = fs') := by
  rw [ramfsMkdir, newFile_ok hv]
  refine exists_congr fun e => and_congr_right fun he => and_congr_right fun _ => or_congr_right ?_
  refine exists_congr fun i => exists_congr fun ino => ?_
  simp only [bind_ok_iff, setEntry_ok, setInode, modify_ok_iff]
  constructor
  · rintro ⟨a, hroom, ⟨_, _, ⟨-, rfl⟩, rfl⟩, rfl⟩
    exact ⟨hroom, rfl, rfl⟩
  · rintro ⟨hroom, rfl, rfl⟩
    exact ⟨(), hroom, ⟨(), _, ⟨⟨e, he.alloc hroom.2.1⟩, rfl⟩, rfl⟩, rfl⟩

theorem ramfsLink_ok (hv : fs.Valid) {r : Except Errno Unit} :
    ramfsLink old dir name fs = .ok r fs' ↔ fs.Points old ∧ ∃ e, fs.Dir dir e ∧ findEntry e name = none ∧
      ((findEntry e [] = none ∧ r = .error .enospc ∧ fs = fs') ∨
        ∃ i, findEntry e [] = some i ∧ r = .ok () ∧ (fs.enter dir.vno i old.vno name).relink old.vno 1 = fs') := by
  simp only [ramfsLink, bind_ok_iff]
  constructor
  · rintro ⟨v, _, hd, _, _, h, h'⟩
    obtain ⟨rfl, hp, -⟩ := deref_ok hv hd
    obtain ⟨e, he, hnew, rfl, rfl⟩ := (freeEntry_ok hv).1 h
    refine ⟨hp, e, he, hnew, ?_⟩
    cases hf : findEntry e [] with
    | none =>
      rw [hf] at h'
      obtain ⟨rfl, rfl⟩ := pure_ok_iff.1 h'
      exact .inl ⟨rfl, rfl, rfl⟩
    | some i =>
      rw [hf] at h'
      simp only [bind_ok_iff, pure_ok_iff] at h'
      obtain ⟨_, _, hset, _, _, hadd, rfl, rfl⟩ := h'
      obtain ⟨-, rfl⟩ := setEntry_ok.1 hset
      obtain ⟨nd, hn, hm⟩ := he.node
      obtain ⟨-, rfl⟩ := (addLinks_ok (enter_spec hv hn hm _ _ _).1).1 hadd
      exact .inr ⟨i, rfl, rfl, rfl⟩
  · rintro ⟨hp, e, he, hnew, h⟩
    obtain ⟨v, hw, hid⟩ := id hp
    refine ⟨v, fs, need_ok.2 ⟨deref_some.2 ⟨hw, hid⟩, rfl⟩, _, fs, (freeEntry_ok hv).2 ⟨e, he, hnew, rfl, rfl⟩, ?_⟩
    rcases h with ⟨hf, rfl, rfl⟩ | ⟨i, hf, rfl, rfl⟩
    · rw [hf]
      rfl
    obtain ⟨nd, hn, hm⟩ := he.node
    have hspec := enter_spec hv hn hm i old.vno name
    rw [hf]
    simp only [bind_ok_iff, pure_ok_iff]
    refine ⟨(), _, setEntry_ok.2 ⟨⟨e, he⟩, rfl⟩, (), _, (addLinks_ok hspec.1).2 ⟨?_, rfl⟩, trivial, rfl⟩
    rw [Fs.Points, hspec.2.1]
    exact hp

/-- Taking a reference, removing the name, and dropping the reference again. -/
def Fs.remove (fs : Fs) (d i n : ℕ) : Fs := (((fs.grab n).leave d i).relink n (-1)).release n

theorem remove_steps (hv : fs.Valid) {e : ℕ → Dirent} {i n : ℕ} (he : fs.Dir dir e) (hf : findEntry e name = some i)
    (hl : (fs.node n).isSome) : ∃ fs1 fs2, clearEntry dir name (fs.grab n) = .ok () fs1 ∧
      addLinks (fs.ptr n) (-1) fs1 = .ok () fs2 ∧ vput (fs.ptr n) fs2 = .ok () (fs.remove dir.vno i n) := by
  obtain ⟨nd, hn, hm⟩ := he.node
  obtain ⟨hv1, hvn1, -⟩ := leave_spec (hv.grab (n := n)) (grab_node ▸ hn) hm i
  have hp1 : ((fs.grab n).leave dir.vno i).Points (fs.ptr n) := by
    rw [Fs.Points, hvn1]
    exact points_ptr hl
  have hr := hp1.refs_pos hv1
  obtain ⟨ndq, hnq⟩ := hv1.live hr
  obtain ⟨hv2, hvn2, -⟩ := relink_spec hv1 hnq (-1)
  refine ⟨_, _, (clearEntry_ok he.grab hf).2 rfl, (addLinks_ok hv1).2 ⟨hp1, by rw [ptr_vno]⟩,
    (vput_ok hv2).2 ⟨?_, by rw [ptr_vno, Fs.remove]⟩⟩
  rw [Fs.Points, hvn2]
  exact hp1

/-- The vnode that a lookup has found. -/
theorem deref_ptr (hv : fs.Valid) {n : ℕ} {nd : Node} (hn : fs.node n = some nd) :
    ∃ v, deref (fs.ptr n) (fs.grab n) = .ok v (fs.grab n) ∧ v.mode = nd.mem.mode := by
  refine deref_of_points hv.grab (points_ptr (by rw [hn]; rfl)) ?_
  rw [grab_node, ptr_vno, hn]

theorem ramfsUnlink_ok (hv : fs.Valid) {r : Except Errno Unit} :
    ramfsUnlink dir name fs = .ok r fs' ↔ ∃ e i nd, fs.Dir dir e ∧ findEntry e name = some i ∧
      fs.node (e i).ino = some nd ∧ nd.mem.mode ≠ .dir ∧ r = .ok () ∧ fs.remove dir.vno i (e i).ino = fs' := by
  simp only [ramfsUnlink, bind_ok_iff, ramfsLookup_ok hv, ← node_isSome]
  constructor
  · rintro ⟨_, _, ⟨e, he, ⟨-, rfl, rfl⟩ | ⟨i, hf, hl, rfl, rfl⟩⟩, h⟩
    · cases h
    obtain ⟨nd, hn⟩ := Option.isSome_iff_exists.1 hl
    obtain ⟨v, hd, hm⟩ := deref_ptr hv hn
    obtain ⟨fs1, fs2, h1, h2, h3⟩ := remove_steps hv he hf hl
    simp only [bind_ok _ hd] at h
    obtain ⟨_, _, hk, h⟩ := bind_ok_iff.1 h
    obtain ⟨hmode, rfl⟩ := kassert_ok.1 hk
    simp only [bind_ok _ h1, bind_ok _ h2, bind_ok _ h3, pure_ok_iff] at h
    obtain ⟨rfl, rfl⟩ := h
    exact ⟨e, i, nd, he, hf, hn, hm ▸ hmode, rfl, rfl⟩
  · rintro ⟨e, i, nd, he, hf, hn, hmode, rfl, rfl⟩
    have hl : (fs.node (e i).ino).isSome := by rw [hn]; rfl
    obtain ⟨v, hd, hm⟩ := deref_ptr hv hn
    obtain ⟨fs1, fs2, h1, h2, h3⟩ := remove_steps hv he hf hl
    refine ⟨_, _, ⟨e, he, .inr ⟨i, hf, hl, rfl, rfl⟩⟩, ?_⟩
    simp only [bind_ok _ hd]
    have hk : kassert (v.mode ≠ .dir) (fs.grab (e i).ino) = .ok () (fs.grab (e i).ino) :=
      kassert_ok.2 ⟨hm ▸ hmode, rfl⟩
    simp only [bind_ok _ hk, bind_ok _ h1, bind_ok _ h2, bind_ok _ h3, pure_ok_iff]
    exact ⟨trivial, trivial⟩

theorem rmdirFound_ok (hv : fs.Valid) {e : ℕ → Dirent} {i n : ℕ} {nd : Node} (he : fs.Dir dir e)
    (hf : findEntry e name = some i) (hn : fs.node n = some nd) {r : Except Errno Unit} :
    rmdirFound dir (fs.ptr n) name (fs.grab n) = .ok r fs' ↔
      (nd.mem.mode ≠ .dir ∧ r = .error .enotdir ∧ (fs.grab n).release n = fs') ∨
        ∃ e', nd.mem = .dir e' ∧ ((dirEmpty e' = true ∧ r = .ok () ∧ fs.remove dir.vno i n = fs') ∨
          (dirEmpty e' = false ∧ r = .error .enotempty ∧ (fs.grab n).release n = fs')) := by
  have hl : (fs.node n).isSome := by rw [hn]; rfl
  have hput : vput (fs.ptr n) (fs.grab n) = .ok () ((fs.grab n).release n) :=
    (vput_ok hv.grab).2 ⟨points_ptr hl, by rw [ptr_vno]⟩
  obtain ⟨v, hd, hm⟩ := deref_ptr hv hn
  rw [rmdirFound, bind_ok _ hd, hm]
  by_cases hmode : nd.mem.mode = .dir
  · obtain ⟨e', he'⟩ := Mem.mode_dir.1 hmode
    have hents : dirents (fs.ptr n) (fs.grab n) = .ok e' (fs.grab n) :=
      dirents_ok.2 ⟨dir_iff.2 ⟨points_ptr hl, nd, by rw [grab_node, ptr_vno, hn], he'⟩, rfl⟩
    obtain ⟨fs1, fs2, h1, h2, h3⟩ := remove_steps hv he hf hl
    rw [if_neg (not_not.2 hmode), bind_ok _ hents]
    cases hempty : dirEmpty e' with
    | true =>
      simp only [if_true, bind_ok _ h1, bind_ok _ h2, bind_ok _ h3, pure_ok_iff]
      simp [Mem.mode, he', hempty, eq_comm (a := r)]
    | false =>
      simp only [Bool.false_eq_true, if_false, bind_ok _ hput, pure_ok_iff]
      simp [Mem.mode, he', hempty, eq_comm (a := r)]
  · have hno : ∀ e', nd.mem ≠ .dir e' := fun e' he' => hmode (Mem.mode_dir.2 ⟨e', he'⟩)
    rw [if_pos hmode, bind_ok _ hput, pure_ok_iff]
    simp [hmode, hno, eq_comm (a := r)]

theorem ramfsRmdir_ok (hv : fs.Valid) {r : Except Errno Unit} :
    ramfsRmdir dir name fs = .ok r fs' ↔ (name ≠ [dot] ∧ name ≠ [dot, dot]) ∧ ∃ e, fs.Dir dir e ∧
      ((findEntry e name = none ∧ r = .error .enoent ∧ fs = fs') ∨
        ∃ i nd, findEntry e name = some i ∧ fs.node (e i).ino = some nd ∧
          ((nd.mem.mode ≠ .dir ∧ r = .error .enotdir ∧ (fs.grab (e i).ino).release (e i).ino = fs') ∨
            ∃ e', nd.mem = .dir e' ∧
              ((dirEmpty e' = true ∧ r = .ok () ∧ fs.remove dir.vno i (e i).ino = fs') ∨
                (dirEmpty e' = false ∧ r = .error .enotempty ∧ (fs.grab (e i).ino).release (e i).ino = fs')))) := by
  simp only [ramfsRmdir, bind_ok_iff, kassert_ok]
  constructor
  · rintro ⟨_, _, ⟨hname, rfl⟩, _, _, hlook, h⟩
    obtain ⟨e, he, ⟨hf, rfl, rfl⟩ | ⟨i, hf, hl, rfl, rfl⟩⟩ := (ramfsLookup_ok hv).1 hlook
    · obtain ⟨rfl, rfl⟩ := pure_ok_iff.1 h
      exact ⟨hname, e, he, .inl ⟨hf, rfl, rfl⟩⟩
    rw [← node_isSome] at hl
    obtain ⟨nd, hn⟩ := Option.isSome_iff_exists.1 hl
    exact ⟨hname, e, he, .inr ⟨i, nd, hf, hn, (rmdirFound_ok hv he hf hn).1 h⟩⟩
  · rintro ⟨hname, e, he, ⟨hf, rfl, rfl⟩ | ⟨i, nd, hf, hn, h⟩⟩
    · exact ⟨(), fs, ⟨hname, rfl⟩, _, _, (ramfsLookup_ok hv).2 ⟨e, he, .inl ⟨hf, rfl, rfl⟩⟩, rfl⟩
    have hl : (fs.inodes (e i).ino).isSome := by rw [← node_isSome, hn]; rfl
    exact ⟨(), fs, ⟨hname, rfl⟩, _, _, (ramfsLookup_ok hv).2 ⟨e, he, .inr ⟨i, hf, hl, rfl, rfl⟩⟩,
      (rmdirFound_ok hv he hf hn).2 h⟩

end Weenix.Vfs
