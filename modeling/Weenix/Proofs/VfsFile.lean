import Weenix.Lib.Exec
import Weenix.Spec.Vfs
import Weenix.Proofs.RamfsCalls

/-! What the parts of a call on a descriptor do when they come back. -/

namespace Weenix.Vfs

open Exec

variable {w w' : World} {f pid : ℕ} {x : File}

theorem onFs_ok {α : Type} {m : FsM α} {a : α} :
    onFs m w = .ok a w' ↔ ∃ fs, m w.fs = .ok a fs ∧ { w with fs := fs } = w' := by
  unfold onFs
  constructor
  · intro h
    split at h
    · next b fs hm =>
      cases h
      exact ⟨fs, hm, rfl⟩
    · cases h
  · rintro ⟨fs, hm, rfl⟩
    rw [hm]

theorem onCwd_ok {α : Type} {m : VPtr → FsM α} {a : α} :
    onCwd pid m w = .ok a w' ↔ ∃ fs, m (w.proc pid).cwd w.fs = .ok a fs ∧ { w with fs := fs } = w' :=
  onFs_ok

theorem check_ok {P : Prop} [Decidable P] {u : Unit} : check P w = .ok u w' ↔ P ∧ w = w' := by
  unfold check
  split
  · next h => simp [pure_ok_iff, h]
  · next h => simp [throw_ok_iff, h]

theorem fileAt_ok : fileAt f w = .ok x w' ↔ w.file f = some x ∧ w = w' := by
  unfold fileAt
  split
  · next y h => simp [h]
  · next h => simp [h]

theorem setFile_ok {o : Option File} {u : Unit} : setFile f o w = .ok u w' ↔ w.setFile f o = w' := modify_ok_iff

/-- The reference to a vnode, if there is one, is dropped. -/
def Drops (p : Option VPtr) (fs fs' : Fs) : Prop :=
  match p with
  | none => fs = fs'
  | some vn => vput vn fs = .ok () fs'

theorem dropVnode_ok {p : Option VPtr} {u : Unit} :
    dropVnode p w = .ok u w' ↔ ∃ fs, Drops p w.fs fs ∧ { w with fs := fs } = w' := by
  cases p with
  | none =>
    refine pure_ok_iff.trans ⟨fun h => ⟨w.fs, rfl, h.2⟩, ?_⟩
    rintro ⟨_, rfl, h⟩
    exact ⟨rfl, h⟩
  | some vn => exact onFs_ok

/-- The assertions of `fref` and `fput` that are about more than the count. -/
structure File.Sane (x : File) : Prop where
  mode : x.mode < 8
  pos : -1 ≤ x.pos

theorem fref_ok {u : Unit} : fref f w = .ok u w' ↔ ∃ x, w.file f = some x ∧ x.Sane ∧
    (x.refcount ≠ 0 → x.vnode ≠ none) ∧ w.setFile f (some { x with refcount := x.refcount + 1 }) = w' := by
  simp only [fref, bind_ok_iff, fileAt_ok, check_ok, setFile_ok]
  constructor
  · rintro ⟨x, _, ⟨hx, rfl⟩, _, _, ⟨hm, rfl⟩, _, _, ⟨hp, rfl⟩, _, _, ⟨hv, rfl⟩, rfl⟩
    exact ⟨x, hx, ⟨hm, hp⟩, hv, rfl⟩
  · rintro ⟨x, hx, ⟨hm, hp⟩, hv, rfl⟩
    exact ⟨x, w, ⟨hx, rfl⟩, (), w, ⟨hm, rfl⟩, (), w, ⟨hp, rfl⟩, (), w, ⟨hv, rfl⟩, rfl⟩

theorem fput_ok {u : Unit} : fput f w = .ok u w' ↔ ∃ x, w.file f = some x ∧ x.Sane ∧ 0 < x.refcount ∧
    (x.refcount ≠ 1 → x.vnode ≠ none) ∧
    ((x.refcount ≠ 1 ∧ w.setFile f (some { x with refcount := x.refcount - 1 }) = w') ∨
      (x.refcount = 1 ∧ ∃ w1, dropVnode x.vnode w = .ok () w1 ∧ w1.setFile f none = w')) := by
  simp only [fput, bind_ok_iff, fileAt_ok, check_ok]
  constructor
  · rintro ⟨x, _, ⟨hx, rfl⟩, _, _, ⟨hm, rfl⟩, _, _, ⟨hp, rfl⟩, _, _, ⟨hr, rfl⟩, _, _, ⟨hv, rfl⟩, h⟩
    refine ⟨x, hx, ⟨hm, hp⟩, hr, hv, ?_⟩
    split at h
    · next h1 =>
      simp only [bind_ok_iff, setFile_ok] at h
      obtain ⟨_, w1, hd, rfl⟩ := h
      exact .inr ⟨h1, w1, hd, rfl⟩
    · next h1 => exact .inl ⟨h1, setFile_ok.1 h⟩
  · rintro ⟨x, hx, ⟨hm, hp⟩, hr, hv, h⟩
    refine ⟨x, w, ⟨hx, rfl⟩, (), w, ⟨hm, rfl⟩, (), w, ⟨hp, rfl⟩, (), w, ⟨hr, rfl⟩, (), w, ⟨hv, rfl⟩, ?_⟩
    rcases h with ⟨h1, rfl⟩ | ⟨h1, w1, hd, rfl⟩
    · rw [if_neg h1]
      exact setFile_ok.2 rfl
    rw [if_pos h1]
    simp only [bind_ok_iff, setFile_ok]
    exact ⟨(), w1, hd, rfl⟩

theorem fileVnode_ok {r : File × VPtr × Vnode} : fileVnode f w = .ok r w' ↔
    w.file f = some r.1 ∧ r.1.vnode = some r.2.1 ∧ w.fs.deref r.2.1 = some r.2.2 ∧ w = w' := by
  simp only [fileVnode, bind_ok_iff, fileAt_ok]
  constructor
  · rintro ⟨x, _, ⟨hx, rfl⟩, h⟩
    cases hv : x.vnode with
    | none =>
      rw [hv] at h
      cases h
    | some vn =>
      rw [hv] at h
      simp only [bind_ok_iff, onFs_ok, deref, need_ok, pure_ok_iff] at h
      obtain ⟨v, _, ⟨_, ⟨hd, rfl⟩, rfl⟩, rfl, rfl⟩ := h
      exact ⟨hx, hv, hd, rfl⟩
  · obtain ⟨x, vn, v⟩ := r
    rintro ⟨hx, hv, hd, rfl⟩
    refine ⟨x, w, ⟨hx, rfl⟩, ?_⟩
    rw [hv]
    simp only [bind_ok_iff, onFs_ok, deref, need_ok, pure_ok_iff]
    exact ⟨v, w, ⟨w.fs, ⟨hd, rfl⟩, rfl⟩, rfl, rfl⟩

def World.desc (w : World) (pid : ℕ) (fd : ℤ) : Option ℕ :=
  if 0 ≤ fd ∧ fd < nFiles then (w.proc pid).files fd.toNat else none

theorem checkFd_ok {fd : ℤ} {r : Fd} : checkFd pid fd w = .ok r w' ↔
    ((r = .bad ∧ fd ≠ nFiles ∧ w.desc pid fd = none) ∨ (r = .beyond ∧ fd = nFiles) ∨
      ∃ f, r = .file f ∧ w.desc pid fd = some f) ∧ w = w' := by
  unfold checkFd World.desc
  by_cases hbad : fd < 0 ∨ nFiles < fd
  · rw [if_pos hbad, pure_ok_iff, if_neg (by omega)]
    have : fd ≠ nFiles := by omega
    simp [this, eq_comm]
  rw [if_neg hbad]
  by_cases h32 : fd = nFiles
  · rw [if_pos h32, pure_ok_iff]
    simp [h32, eq_comm]
  rw [if_neg h32, if_pos (by omega)]
  simp only [bind_ok_iff, get_ok_iff]
  constructor
  · rintro ⟨_, _, ⟨rfl, rfl⟩, h⟩
    cases hf : (w.proc pid).files fd.toNat with
    | none =>
      rw [hf] at h
      obtain ⟨rfl, rfl⟩ := pure_ok_iff.1 h
      exact ⟨.inl ⟨rfl, h32, rfl⟩, rfl⟩
    | some f =>
      rw [hf] at h
      obtain ⟨rfl, rfl⟩ := pure_ok_iff.1 h
      exact ⟨.inr (.inr ⟨f, rfl, rfl⟩), rfl⟩
  · rintro ⟨⟨rfl, -, hf⟩ | ⟨rfl, h⟩ | ⟨f, rfl, hf⟩, rfl⟩
    · refine ⟨w, w, ⟨rfl, rfl⟩, ?_⟩
      rw [hf]
      rfl
    · exact absurd h h32
    refine ⟨w, w, ⟨rfl, rfl⟩, ?_⟩
    rw [hf]
    rfl

namespace World

variable (w : World)

def slot (i : ℕ × Fin nFiles) : Option ℕ := (w.proc i.1).files i.2

def count (f : ℕ) : ℕ := (w.file f).elim 0 (·.refcount)

end World

/-- A descriptor that is not negative. -/
theorem setFd_ok {fd : ℤ} {o : Option ℕ} {u : Unit} (hfd : 0 ≤ fd) :
    setFd pid fd o w = .ok u w' ↔ ∃ i : Fin nFiles, (i : ℤ) = fd ∧ w.setFd pid i o = w' := by
  unfold setFd
  rw [if_neg (by simp only [Errno.code]; omega)]
  split
  · next h =>
    rw [throw_ok_iff, false_iff]
    rintro ⟨i, rfl, -⟩
    omega
  next h =>
  rw [modify_ok_iff]
  constructor
  · intro h'
    exact ⟨⟨fd.toNat, by omega⟩, by simp only; omega, h'⟩
  · rintro ⟨i, rfl, h'⟩
    rwa [Int.toNat_natCast]

end Weenix.Vfs
