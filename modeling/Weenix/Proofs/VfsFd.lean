import Weenix.Proofs.VfsOpen

/-! The range of descriptors. Every call on a descriptor tests `fd > NFILES`, so the descriptor
`NFILES` gets as far as `p_files`, and so does the `-EMFILE` that `do_dup` is given for a full table. -/

namespace Weenix.Vfs

open Exec List

variable {w w' : World} {pid : ℕ} {env : Env} {fd ofd nfd : ℤ}

inductive FdCall
  | read (fd : ℤ) (nbytes : ℕ)
  | write (fd : ℤ) (buf : List UInt8)
  | close (fd : ℤ)
  | dup (fd : ℤ)
  | dup2 (ofd nfd : ℤ)
  | getdent (fd : ℤ)
  | lseek (fd offset : ℤ) (whence : ℕ)

def FdCall.syscall : FdCall → Syscall
  | read fd nbytes => .read fd nbytes
  | write fd buf => .write fd buf
  | close fd => .close fd
  | dup fd => .dup fd
  | dup2 ofd nfd => .dup2 ofd nfd
  | getdent fd => .getdent fd
  | lseek fd offset whence => .lseek fd offset whence

namespace World

variable (w) (pid)

def Bad (fd : ℤ) : Prop := fd < 0 ∨ nFiles ≤ fd ∨ (w.proc pid).files fd.toNat = none

def emptyFd : ℤ :=
  match (List.range nFiles).find? fun fd => ((w.proc pid).files fd).isNone with
  | some fd => fd
  | none => -Errno.emfile.code

def indices : FdCall → List ℤ
  | .read fd _ | .write fd _ | .close fd | .getdent fd | .lseek fd _ _ => if 0 ≤ fd ∧ fd ≤ nFiles then [fd] else []
  | .dup fd =>
    if 0 ≤ fd ∧ fd ≤ nFiles then
      -- `fget` is null for the descriptor `NFILES`, and an assertion fails
      if fd = nFiles ∨ (w.proc pid).files fd.toNat = none then [fd] else [fd, w.emptyFd pid]
    else []
  | .dup2 ofd nfd =>
    if 0 ≤ ofd ∧ ofd ≤ nFiles ∧ 0 ≤ nfd ∧ nfd ≤ nFiles then
      -- what is behind the table is not null
      if ofd = nFiles ∨ (w.proc pid).files ofd.toNat ≠ none then [ofd, nfd] else [ofd]
    else []

/-- The call has a descriptor that it has to refuse. -/
def Refuses : FdCall → Prop
  | .read fd _ | .write fd _ | .close fd | .dup fd | .getdent fd | .lseek fd _ _ => w.Bad pid fd
  | .dup2 ofd nfd => w.Bad pid ofd ∨ nfd < 0 ∨ nFiles ≤ nfd

def Full : FdCall → Prop
  | .dup fd => ¬ w.Bad pid fd ∧ ∀ i < nFiles, (w.proc pid).files i ≠ none
  | _ => False

/-- Every descriptor that passes the tests of a call is one of the table, there is a free one for
`do_dup`, and the first one of `do_dup2` is open. -/
def FdFine : FdCall → Prop
  | .read fd _ | .write fd _ | .close fd | .getdent fd | .lseek fd _ _ => fd ≠ nFiles
  | .dup fd => fd ≠ nFiles ∧ (w.Bad pid fd ∨ ∃ i < nFiles, (w.proc pid).files i = none)
  | .dup2 ofd nfd => (ofd < 0 ∨ nFiles < ofd ∨ nfd < 0 ∨ nFiles < nfd) ∨ (¬ w.Bad pid ofd ∧ nfd < nFiles)

end World

structure FdContract (w : World) (pid : ℕ) (env : Env) (c : FdCall) : Prop where
  refuses : w.Refuses pid c → c.syscall.exec pid env w = .ok (-Errno.ebadf.code) w
  full : w.Full pid c → c.syscall.exec pid env w = .ok (-Errno.emfile.code) w
  inside : ∀ i ∈ w.indices pid c, 0 ≤ i ∧ i < nFiles

theorem bad_iff : w.Bad pid fd ↔ w.desc pid fd = none := by
  unfold World.Bad World.desc
  split_ifs with h
  · exact ⟨fun hb => (hb.resolve_left (by omega)).resolve_left (by omega), fun hn => .inr (.inr hn)⟩
  · exact iff_of_true (by omega) rfl

theorem emptyFd_inside : (0 ≤ w.emptyFd pid ∧ w.emptyFd pid < nFiles) ↔ ∃ i < nFiles, (w.proc pid).files i = none := by
  unfold World.emptyFd
  cases hf : (List.range nFiles).find? fun fd => ((w.proc pid).files fd).isNone with
  | none =>
    refine iff_of_false (fun h => ?_) ?_
    · simp only [Errno.code] at h
      omega
    rintro ⟨i, hi, hfree⟩
    have hused := List.find?_range_eq_none.1 hf i hi
    simp [hfree] at hused
  | some i =>
    obtain ⟨hfree, hi, -⟩ := List.find?_range_eq_some.1 hf
    refine iff_of_true ⟨by simp only; omega, by simpa using hi⟩ ⟨i, by simpa using hi, by simpa using hfree⟩

/-- Every call refuses a bad descriptor other than `NFILES`. -/
theorem checkFd_bad (h : w.Bad pid fd) (hfd : fd ≠ nFiles) : checkFd pid fd w = .ok .bad w :=
  checkFd_ok.2 ⟨.inl ⟨rfl, hfd, bad_iff.1 h⟩, rfl⟩

theorem dup2_outside (h : ofd < 0 ∨ nFiles < ofd ∨ nfd < 0 ∨ nFiles < nfd) :
    doDup2 pid ofd nfd w = .ok (-Errno.ebadf.code) w := by
  rw [doDup2, if_pos h]
  rfl

/-- A descriptor that is not open gives `EBADF` with the wrong sign. -/
theorem dup2_closed (hofd : 0 ≤ ofd ∧ ofd < nFiles) (hnfd : 0 ≤ nfd ∧ nfd ≤ nFiles) (h : w.Bad pid ofd) :
    doDup2 pid ofd nfd w = .ok Errno.ebadf.code w := by
  rw [doDup2, if_neg (by omega), bind_ok _ (checkFd_bad h (by omega))]
  rfl

theorem FdContract.fine {c : FdCall} (h : FdContract w pid env c) : w.FdFine pid c := by
  have hone : ∀ fd : ℤ, (∀ i ∈ (if 0 ≤ fd ∧ fd ≤ nFiles then [fd] else []), 0 ≤ i ∧ i < (nFiles : ℤ)) → fd ≠ nFiles := by
    intro fd hin he
    rw [if_pos (by omega)] at hin
    have := hin fd (mem_singleton_self fd)
    omega
  have hinside := h.inside
  cases c with
  | read fd nbytes | write fd buf | close fd | getdent fd | lseek fd offset whence => exact hone fd hinside
  | dup fd =>
    rw [World.indices] at hinside
    have hfd : fd ≠ nFiles := by
      intro he
      rw [if_pos (by omega), if_pos (.inl he)] at hinside
      have := hinside fd (mem_singleton_self fd)
      omega
    refine ⟨hfd, or_iff_not_imp_left.2 fun hb => ?_⟩
    have hopen : 0 ≤ fd ∧ fd < nFiles ∧ (w.proc pid).files fd.toNat ≠ none := by
      unfold World.Bad at hb
      push Not at hb
      exact hb
    rw [if_pos (by omega), if_neg (not_or.2 ⟨hfd, hopen.2.2⟩)] at hinside
    exact emptyFd_inside.1 (hinside _ (by simp))
  | dup2 ofd nfd =>
    refine or_iff_not_imp_left.2 fun hin => ?_
    rw [World.indices, if_pos (by omega)] at hinside
    have hofd : ofd < nFiles := by
      refine (hinside ofd ?_).2
      split_ifs <;> simp
    have hgood : ¬ w.Bad pid ofd := by
      intro hb
      have hret := h.refuses (.inl hb)
      change doDup2 pid ofd nfd w = _ at hret
      rw [dup2_closed ⟨by omega, hofd⟩ (by omega) hb] at hret
      exact absurd hret (by simp [Errno.code])
    refine ⟨hgood, (hinside nfd ?_).2⟩
    have hopen : (w.proc pid).files ofd.toNat ≠ none := fun he => hgood (.inr (.inr he))
    rw [if_pos (.inr hopen)]
    simp

theorem World.FdFine.contract {c : FdCall} (h : w.FdFine pid c) : FdContract w pid env c := by
  have hone : ∀ {fd : ℤ}, fd ≠ nFiles → ∀ i ∈ (if 0 ≤ fd ∧ fd ≤ nFiles then [fd] else []), 0 ≤ i ∧ i < (nFiles : ℤ) := by
    intro fd hfd i hi
    split_ifs at hi
    · rw [mem_singleton.1 hi]
      omega
    · cases hi
  cases c with
  | read fd nbytes | getdent fd =>
    refine ⟨fun hb => ?_, False.elim, hone h⟩
    exact bind_ok_iff.2 ⟨_, w, bind_ok_iff.2 ⟨_, w, checkFd_bad hb h, rfl⟩, rfl⟩
  | write fd buf | close fd => exact ⟨fun hb => bind_ok_iff.2 ⟨_, w, checkFd_bad hb h, rfl⟩, False.elim, hone h⟩
  | lseek fd offset whence =>
    exact ⟨fun hb => bind_ok_iff.2 ⟨_, w, checkFd_bad hb h, rfl⟩, False.elim, hone h⟩
  | dup fd =>
    obtain ⟨hfd, hfree⟩ := h
    refine ⟨fun hb => bind_ok_iff.2 ⟨_, w, checkFd_bad hb hfd, rfl⟩, ?_, fun i hi => ?_⟩
    · rintro ⟨hgood, hused⟩
      obtain ⟨i, hi, hnone⟩ := hfree.resolve_left hgood
      exact absurd hnone (hused i hi)
    rw [World.indices] at hi
    split_ifs at hi with hr hb
    · rw [mem_singleton.1 hi]
      omega
    · have hgood : ¬ w.Bad pid fd := by
        rw [not_or] at hb
        rintro (hlt | hge | hnone)
        · omega
        · omega
        · exact hb.2 hnone
      rcases mem_pair.1 hi with rfl | rfl
      · omega
      · exact emptyFd_inside.2 (hfree.resolve_left hgood)
    · cases hi
  | dup2 ofd nfd =>
    rcases h with hout | ⟨hgood, hnfd⟩
    · refine ⟨fun _ => dup2_outside hout, False.elim, fun i hi => ?_⟩
      rw [World.indices, if_neg (by omega)] at hi
      cases hi
    by_cases hneg : nfd < 0
    · refine ⟨fun _ => dup2_outside (.inr (.inr (.inl hneg))), False.elim, fun i hi => ?_⟩
      rw [World.indices, if_neg (by omega)] at hi
      cases hi
    have hopen : 0 ≤ ofd ∧ ofd < nFiles := by
      unfold World.Bad at hgood
      omega
    refine ⟨?_, False.elim, fun i hi => ?_⟩
    · rintro (hb | hb)
      · exact absurd hb hgood
      · omega
    rw [World.indices, if_pos (by omega)] at hi
    split_ifs at hi
    · rcases mem_pair.1 hi with rfl | rfl <;> omega
    rw [mem_singleton.1 hi]
    omega

/-- A call refuses what it has to refuse, and stays in the table, exactly in these cases. -/
theorem fdContract_iff (w : World) (pid : ℕ) (env : Env) (c : FdCall) :
    FdContract w pid env c ↔ w.FdFine pid c :=
  ⟨FdContract.fine, World.FdFine.contract⟩

/-- The descriptor 32 of a process with no open file is read, the descriptor 5 is duplicated. And
with all descriptors open, a duplicate would be the descriptor -24. -/
theorem fd_leaves_table : booted.indices 0 (.read 32 1) = [32] ∧
    (Syscall.read 32 1).exec 0 ⟨true, true, none, false, none⟩ booted = .error .wild booted ∧
    (Syscall.dup2 5 6).exec 0 ⟨true, true, none, false, none⟩ booted = .ok 9 booted ∧
    World.indices { booted with proc := fun _ => ⟨fun _ => some 0, rootVn⟩ } 0 (.dup 3) = [3, -24] :=
  ⟨rfl, rfl, rfl, rfl⟩

end Weenix.Vfs
