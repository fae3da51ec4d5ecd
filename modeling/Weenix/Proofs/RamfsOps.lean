import Weenix.Lib.Exec
import Weenix.Spec.Ramfs

/-! What the parts of a ramfs call do when they come back. While a vnode is in core its inode has
one link more; the disk below is what stays when that link is left out, so that taking and
dropping references changes no more of it than the inodes that are freed. -/

namespace Weenix.Vfs

open Exec

theorem Errno.code_pos (e : Errno) : 0 < e.code := by
  cases e <;> decide

theorem kassert_ok {fs fs' : Fs} {P : Prop} [Decidable P] {u : Unit} :
    kassert P fs = .ok u fs' ↔ P ∧ fs = fs' := by
  unfold kassert
  split
  · next h => simp [pure_ok_iff, h]
  · next h => simp [throw_ok_iff, h]

theorem need_ok {fs fs' : Fs} {α : Type} {f : Fs → Option α} {a : α} :
    need f fs = .ok a fs' ↔ f fs = some a ∧ fs = fs' := by
  unfold need
  split
  · next b h => simp [h]
  · next h => simp [h]

theorem Mem.entries_some {m : Mem} {e : ℕ → Dirent} : m.entries = some e ↔ m = .dir e := by
  cases m <;> simp [Mem.entries]

theorem Mem.mode_dir {m : Mem} : m.mode = .dir ↔ ∃ e, m = .dir e := by
  cases m <;> simp [Mem.mode]

namespace Fs

variable {fs fs' : Fs} {p q : VPtr} {n m : ℕ}

theorem deref_some {v : Vnode} : fs.deref p = some v ↔ fs.vnodes p.vno = some v ∧ v.id = p.id := by
  simp [Fs.deref, Option.filter_eq_some_iff]

def Points (fs : Fs) (p : VPtr) : Prop := ∃ v, fs.vnodes p.vno = some v ∧ v.id = p.id

theorem inodeOf_some {i : Inode} : fs.inodeOf p = some i ↔ fs.Points p ∧ fs.inodes p.vno = some i := by
  simp [Fs.inodeOf, Option.bind_eq_some_iff, deref_some, Points]

structure Valid (fs : Fs) : Prop where
  inode : ∀ {n i}, fs.inodes n = some i → i.ino = n ∧ n < maxFiles
  vnode : ∀ {n v}, fs.vnodes n = some v →
    0 < v.refcount ∧ v.id < fs.allocs ∧ ∃ i, fs.inodes n = some i ∧ v.mode = i.mem.mode

def refs (fs : Fs) (n : ℕ) : ℕ :=
  match fs.vnodes n with
  | some v => v.refcount
  | none => 0

def ptr (fs : Fs) (n : ℕ) : VPtr :=
  match fs.vnodes n with
  | some v => ⟨n, v.id⟩
  | none => ⟨n, fs.allocs⟩

def grab (fs : Fs) (n : ℕ) : Fs :=
  match fs.vnodes n, fs.inodes n with
  | some v, _ => fs.setVnode n (some { v with refcount := v.refcount + 1 })
  | none, some i =>
    { (fs.setInode n (some { i with linkcount := i.linkcount + 1 })).setVnode n
        (some ⟨fs.allocs, 1, i.mem.mode, i.size⟩) with allocs := fs.allocs + 1 }
  | none, none => fs

def release (fs : Fs) (n : ℕ) : Fs :=
  match fs.vnodes n, fs.inodes n with
  | some v, some i =>
    if 1 < v.refcount then fs.setVnode n (some { v with refcount := v.refcount - 1 })
    else (fs.setInode n (if i.linkcount - 1 = 0 then none else some { i with linkcount := i.linkcount - 1 })).setVnode
      n none
  | _, _ => fs

end Fs

section Calls

variable {fs fs' : Fs} {p : VPtr} {n : ℕ}

theorem vref_ok (hv : fs.Valid) {u : Unit} : vref p fs = .ok u fs' ↔ fs.Points p ∧ fs.grab p.vno = fs' := by
  simp only [vref, deref, bind_ok_iff, need_ok, kassert_ok, setVnode, modify_ok_iff, Fs.deref_some]
  constructor
  · rintro ⟨v, _, ⟨⟨hp, hid⟩, rfl⟩, _, _, ⟨-, rfl⟩, rfl⟩
    refine ⟨⟨v, hp, hid⟩, ?_⟩
    simp [Fs.grab, hp]
  · rintro ⟨⟨v, hp, hid⟩, rfl⟩
    refine ⟨v, fs, ⟨⟨hp, hid⟩, rfl⟩, (), fs, ⟨(hv.vnode hp).1, rfl⟩, ?_⟩
    simp [Fs.grab, hp]

theorem ramfsReadVnode_ok {v : Vnode} : ramfsReadVnode n fs = .ok v fs' ↔ ∃ i, fs.inodes n = some i ∧ i.ino = n ∧
    v = ⟨fs.allocs, 1, i.mem.mode, i.size⟩ ∧
    fs.setInode n (some { i with linkcount := i.linkcount + 1 }) = fs' := by
  simp only [ramfsReadVnode, bind_ok_iff, get_ok_iff]
  constructor
  · rintro ⟨_, _, ⟨rfl, rfl⟩, h⟩
    cases hi : fs.inodes n with
    | none =>
      rw [hi] at h
      cases h
    | some i =>
      rw [hi] at h
      simp only [bind_ok_iff, kassert_ok, setInode, modify_ok_iff, get_ok_iff, pure_ok_iff] at h
      obtain ⟨_, _, ⟨hino, rfl⟩, _, _, rfl, _, _, ⟨rfl, rfl⟩, rfl, rfl⟩ := h
      exact ⟨i, rfl, hino, rfl, rfl⟩
  · rintro ⟨i, hi, hino, rfl, rfl⟩
    refine ⟨fs, fs, ⟨rfl, rfl⟩, ?_⟩
    rw [hi]
    simp only [bind_ok_iff, kassert_ok, setInode, modify_ok_iff, get_ok_iff, pure_ok_iff]
    exact ⟨(), fs, ⟨hino, rfl⟩, (), _, rfl, _, _, ⟨rfl, rfl⟩, rfl, rfl⟩

theorem vget_ok (hv : fs.Valid) :
    vget n fs = .ok p fs' ↔ (fs.inodes n).isSome ∧ fs.ptr n = p ∧ fs.grab n = fs' := by
  simp only [vget, bind_ok_iff, get_ok_iff]
  cases hn : fs.vnodes n with
  | some v =>
    obtain ⟨-, -, i, hi, -⟩ := hv.vnode hn
    constructor
    · rintro ⟨_, _, ⟨rfl, rfl⟩, h⟩
      rw [hn] at h
      simp only [bind_ok_iff, vref_ok hv, pure_ok_iff] at h
      obtain ⟨_, _, ⟨-, rfl⟩, rfl, rfl⟩ := h
      exact ⟨by rw [hi]; rfl, by simp [Fs.ptr, hn], rfl⟩
    · rintro ⟨-, rfl, rfl⟩
      refine ⟨fs, fs, ⟨rfl, rfl⟩, ?_⟩
      rw [hn]
      simp only [bind_ok_iff, vref_ok hv, pure_ok_iff]
      exact ⟨(), _, ⟨⟨v, hn, rfl⟩, rfl⟩, by simp [Fs.ptr, hn], rfl⟩
  | none =>
    constructor
    · rintro ⟨_, _, ⟨rfl, rfl⟩, h⟩
      rw [hn] at h
      simp only [bind_ok_iff, ramfsReadVnode_ok, setVnode, modify_ok_iff, pure_ok_iff] at h
      obtain ⟨_, _, ⟨i, hi, -, rfl, rfl⟩, _, _, rfl, _, _, rfl, rfl, rfl⟩ := h
      exact ⟨by rw [hi]; rfl, by simp [Fs.ptr, hn], by simp [Fs.grab, hn, hi, Fs.setVnode, Fs.setInode]⟩
    · rintro ⟨hi, rfl, rfl⟩
      obtain ⟨i, hi⟩ := Option.isSome_iff_exists.1 hi
      refine ⟨fs, fs, ⟨rfl, rfl⟩, ?_⟩
      rw [hn]
      simp only [bind_ok_iff, ramfsReadVnode_ok, setVnode, modify_ok_iff, pure_ok_iff]
      refine ⟨_, _, ⟨i, hi, (hv.inode hi).1, rfl, rfl⟩, (), _, rfl, (), _, rfl, ?_, ?_⟩
      · simp [Fs.ptr, hn]
      · simp [Fs.grab, hn, hi, Fs.setVnode, Fs.setInode]

theorem ramfsDeleteVnode_ok {u : Unit} : ramfsDeleteVnode p fs = .ok u fs' ↔ ∃ i, fs.inodeOf p = some i ∧
    fs.setInode p.vno (if i.linkcount - 1 = 0 then none else some { i with linkcount := i.linkcount - 1 }) = fs' := by
  simp only [ramfsDeleteVnode, inodeOf, bind_ok_iff, need_ok]
  constructor
  · rintro ⟨i, _, ⟨hi, rfl⟩, h⟩
    refine ⟨i, hi, ?_⟩
    split at h
    all_goals
      next hl =>
      simp only [hl, if_true, if_false]
      exact modify_ok_iff.1 h
  · rintro ⟨i, hi, rfl⟩
    refine ⟨i, fs, ⟨hi, rfl⟩, ?_⟩
    split
    all_goals exact modify_ok_iff.2 rfl

theorem vput_ok (hv : fs.Valid) {u : Unit} : vput p fs = .ok u fs' ↔ fs.Points p ∧ fs.release p.vno = fs' := by
  simp only [vput, deref, bind_ok_iff, need_ok, kassert_ok, Fs.deref_some]
  have hget : ∀ v, fs.vnodes p.vno = some v → ∃ i, fs.inodes p.vno = some i := fun v hp => by
    obtain ⟨-, -, i, hi, -⟩ := hv.vnode hp
    exact ⟨i, hi⟩
  constructor
  · rintro ⟨v, _, ⟨⟨hp, hid⟩, rfl⟩, _, _, ⟨-, rfl⟩, h⟩
    obtain ⟨i, hi⟩ := hget v hp
    refine ⟨⟨v, hp, hid⟩, ?_⟩
    simp only [Fs.release, hp, hi]
    split at h
    · next hr =>
      simp only [hr, if_true]
      exact modify_ok_iff.1 h
    next hr =>
    simp only [bind_ok_iff, ramfsDeleteVnode_ok, setVnode, modify_ok_iff] at h
    obtain ⟨_, _, ⟨j, hj, rfl⟩, rfl⟩ := h
    obtain rfl : i = j := Option.some.inj (hi.symm.trans (Fs.inodeOf_some.1 hj).2)
    simp only [hr, if_false]
  · rintro ⟨⟨v, hp, hid⟩, rfl⟩
    obtain ⟨i, hi⟩ := hget v hp
    refine ⟨v, fs, ⟨⟨hp, hid⟩, rfl⟩, (), fs, ⟨(hv.vnode hp).1, rfl⟩, ?_⟩
    simp only [Fs.release, hp, hi]
    split
    · exact modify_ok_iff.2 rfl
    simp only [bind_ok_iff, ramfsDeleteVnode_ok, setVnode, modify_ok_iff]
    exact ⟨(), _, ⟨i, Fs.inodeOf_some.2 ⟨⟨v, hp, hid⟩, hi⟩, rfl⟩, rfl⟩

/-- `e` are the entries of the directory behind `p`. -/
def Fs.Dir (fs : Fs) (p : VPtr) (e : ℕ → Dirent) : Prop :=
  fs.Points p ∧ ∃ i, fs.inodes p.vno = some i ∧ i.mem = .dir e

theorem dirents_ok {e : ℕ → Dirent} : dirents p fs = .ok e fs' ↔ fs.Dir p e ∧ fs = fs' := by
  simp only [dirents, need_ok, Option.bind_eq_some_iff, Fs.inodeOf_some, Mem.entries_some, Fs.Dir]
  constructor
  · rintro ⟨⟨i, ⟨hp, hi⟩, he⟩, rfl⟩
    exact ⟨⟨hp, i, hi, he⟩, rfl⟩
  · rintro ⟨⟨hp, i, hi, he⟩, rfl⟩
    exact ⟨⟨i, ⟨hp, hi⟩, he⟩, rfl⟩

theorem Fs.Dir.inj {e e' : ℕ → Dirent} (h : fs.Dir p e) (h' : fs.Dir p e') : e = e' := by
  obtain ⟨-, i, hi, he⟩ := h
  obtain ⟨-, j, hj, he'⟩ := h'
  obtain rfl : i = j := Option.some.inj (hi.symm.trans hj)
  exact Mem.dir.inj (he.symm.trans he')

theorem ramfsLookup_ok (hv : fs.Valid) {dir : VPtr} {name : CStr} {r : Except Errno VPtr} :
    ramfsLookup dir name fs = .ok r fs' ↔ ∃ e, fs.Dir dir e ∧
      ((findEntry e name = none ∧ r = .error .enoent ∧ fs = fs') ∨
        ∃ i, findEntry e name = some i ∧ (fs.inodes (e i).ino).isSome ∧ r = .ok (fs.ptr (e i).ino) ∧
          fs.grab (e i).ino = fs') := by
  simp only [ramfsLookup, bind_ok_iff, dirents_ok]
  constructor
  · rintro ⟨e, _, ⟨he, rfl⟩, h⟩
    refine ⟨e, he, ?_⟩
    cases hf : findEntry e name with
    | none =>
      rw [hf] at h
      obtain ⟨rfl, rfl⟩ := pure_ok_iff.1 h
      exact .inl ⟨rfl, rfl, rfl⟩
    | some i =>
      rw [hf] at h
      simp only [bind_ok_iff, vget_ok hv, pure_ok_iff] at h
      obtain ⟨_, _, ⟨hi, rfl, rfl⟩, rfl, rfl⟩ := h
      exact .inr ⟨i, rfl, hi, rfl, rfl⟩
  · rintro ⟨e, he, ⟨hf, rfl, rfl⟩ | ⟨i, hf, hi, rfl, rfl⟩⟩
    · refine ⟨e, fs, ⟨he, rfl⟩, ?_⟩
      rw [hf]
      rfl
    refine ⟨e, fs, ⟨he, rfl⟩, ?_⟩
    rw [hf]
    simp only [bind_ok_iff, vget_ok hv, pure_ok_iff]
    exact ⟨_, _, ⟨hi, rfl, rfl⟩, rfl, rfl⟩

theorem freeEntry_ok (hv : fs.Valid) {dir : VPtr} {name : CStr} {r : Option ℕ} :
    freeEntry dir name fs = .ok r fs' ↔ ∃ e, fs.Dir dir e ∧ findEntry e name = none ∧ r = findEntry e [] ∧ fs = fs' := by
  simp only [freeEntry, bind_ok_iff, ramfsLookup_ok hv]
  constructor
  · rintro ⟨_, _, ⟨e, he, ⟨hf, rfl, rfl⟩ | ⟨i, hf, hi, rfl, rfl⟩⟩, h⟩
    · simp only [bind_ok_iff, dirents_ok, pure_ok_iff] at h
      obtain ⟨e', _, ⟨he', rfl⟩, rfl, rfl⟩ := h
      obtain rfl := he.inj he'
      exact ⟨e, he, hf, rfl, rfl⟩
    · cases h
  · rintro ⟨e, he, hf, rfl, rfl⟩
    refine ⟨_, _, ⟨e, he, .inl ⟨hf, rfl, rfl⟩⟩, ?_⟩
    simp only [bind_ok_iff, dirents_ok, pure_ok_iff]
    exact ⟨e, fs, ⟨he, rfl⟩, rfl, rfl⟩

def Fs.freeInode (fs : Fs) : Option ℕ := (List.range maxFiles).find? fun i => (fs.inodes i).isNone

theorem ramfsAllocInode_ok {mem : Mem} {memory : Bool} {r : Option ℕ} : ramfsAllocInode mem memory fs = .ok r fs' ↔
    ((fs.freeInode = none ∨ memory = false) ∧ r = none ∧ fs = fs') ∨
      ∃ i, fs.freeInode = some i ∧ memory = true ∧ r = some i ∧ fs.setInode i (some ⟨0, i, mem, 1⟩) = fs' := by
  rw [ramfsAllocInode, bind_ok_iff]
  simp only [get_ok_iff, and_assoc, exists_and_left, exists_eq_left']
  rw [← Fs.freeInode]
  cases fs.freeInode with
  | none => simp [pure_ok_iff, eq_comm]
  | some i =>
    cases memory with
    | false => simp [pure_ok_iff, eq_comm]
    | true =>
      simp only [if_true, bind_ok_iff, setInode, modify_ok_iff, pure_ok_iff]
      simp [eq_comm]

def Fs.enter (fs : Fs) (d i ino : ℕ) (name : CStr) : Fs :=
  match fs.inodes d with
  | some inode =>
    match inode.mem with
    | .dir e => fs.setInode d (some { inode with
        mem := .dir (Function.update e i ⟨ino, name.take (nameLen - 1)⟩), size := inode.size + direntSize })
    | _ => fs
  | none => fs

def Fs.leave (fs : Fs) (d i : ℕ) : Fs :=
  match fs.inodes d with
  | some inode =>
    match inode.mem with
    | .dir e => fs.setInode d (some { inode with
        mem := .dir (Function.update e i ⟨(e i).ino, []⟩), size := inode.size - direntSize })
    | _ => fs
  | none => fs

def Fs.relink (fs : Fs) (n : ℕ) (k : ℤ) : Fs :=
  match fs.inodes n with
  | some inode => fs.setInode n (some { inode with linkcount := inode.linkcount + k })
  | none => fs

theorem setEntry_ok {dir : VPtr} {i ino : ℕ} {name : CStr} {u : Unit} :
    setEntry dir i ino name fs = .ok u fs' ↔ (∃ e, fs.Dir dir e) ∧ fs.enter dir.vno i ino name = fs' := by
  simp only [setEntry, inodeOf, setInode, bind_ok_iff, dirents_ok, need_ok, Fs.inodeOf_some, modify_ok_iff]
  constructor
  · rintro ⟨e, _, ⟨⟨hp, j, hj, he⟩, rfl⟩, i, _, ⟨⟨-, hi⟩, rfl⟩, rfl⟩
    obtain rfl : j = i := Option.some.inj (hj.symm.trans hi)
    exact ⟨⟨e, hp, j, hj, he⟩, by simp [Fs.enter, hj, he]⟩
  · rintro ⟨⟨e, hp, j, hj, he⟩, rfl⟩
    exact ⟨e, fs, ⟨⟨hp, j, hj, he⟩, rfl⟩, j, fs, ⟨⟨hp, hj⟩, rfl⟩, by simp [Fs.enter, hj, he]⟩

theorem clearEntry_ok {dir : VPtr} {i : ℕ} {e : ℕ → Dirent} {name : CStr} {u : Unit} (he : fs.Dir dir e)
    (hf : findEntry e name = some i) : clearEntry dir name fs = .ok u fs' ↔ fs.leave dir.vno i = fs' := by
  obtain ⟨hp, j, hj, hm⟩ := id he
  simp only [clearEntry, inodeOf, setInode, bind_ok_iff, dirents_ok, need_ok, Fs.inodeOf_some, modify_ok_iff]
  constructor
  · rintro ⟨e', _, ⟨he', rfl⟩, j', _, ⟨⟨-, hj'⟩, rfl⟩, rfl⟩
    obtain rfl := he.inj he'
    obtain rfl : j = j' := Option.some.inj (hj.symm.trans hj')
    simp [Fs.leave, hj, hm, hf]
  · rintro rfl
    exact ⟨e, fs, ⟨he, rfl⟩, j, fs, ⟨⟨hp, hj⟩, rfl⟩, by simp [Fs.leave, hj, hm, hf]⟩

theorem addLinks_ok (hv : fs.Valid) {k : ℤ} {u : Unit} :
    addLinks p k fs = .ok u fs' ↔ fs.Points p ∧ fs.relink p.vno k = fs' := by
  simp only [addLinks, inodeOf, setInode, bind_ok_iff, need_ok, Fs.inodeOf_some, modify_ok_iff]
  constructor
  · rintro ⟨i, _, ⟨⟨hp, hi⟩, rfl⟩, rfl⟩
    exact ⟨hp, by simp [Fs.relink, hi]⟩
  rintro ⟨hp, rfl⟩
  obtain ⟨v, hp', -⟩ := id hp
  obtain ⟨-, -, i, hi, -⟩ := hv.vnode hp'
  exact ⟨i, fs, ⟨⟨hp, hi⟩, rfl⟩, by simp [Fs.relink, hi]⟩

end Calls

end Weenix.Vfs
