import Weenix.Proofs.ProcTree

/-! The lists of processes and the rest of the kernel: a process that is given to another
parent, reaped or freed takes nothing with it but its own thread. -/

namespace Weenix.Sched

open Exec

variable {s s' : State} {t p : ℕ}

/-- What moving processes between lists leaves: threads, queues, the stack in use and the pids. -/
structure Spares (s s' : State) : Prop where
  thr : s'.thr = s.thr
  queue : s'.queue = s.queue
  curthr : s'.curthr = s.curthr
  curproc : s'.curproc = s.curproc
  cpu : s'.cpu = s.cpu
  kmHolder : s'.kmHolder = s.kmHolder
  ipl : s'.ipl = s.ipl
  ints : s'.ints = s.ints
  pid : ∀ x, (s'.proc x).pPid = (s.proc x).pPid

theorem Spares.refl (s : State) : Spares s s := ⟨rfl, rfl, rfl, rfl, rfl, rfl, rfl, rfl, fun _ => rfl⟩

theorem Spares.trans {s1 : State} (h1 : Spares s s1) (h2 : Spares s1 s') : Spares s s' where
  thr := h2.thr.trans h1.thr
  queue := h2.queue.trans h1.queue
  curthr := h2.curthr.trans h1.curthr
  curproc := h2.curproc.trans h1.curproc
  cpu := h2.cpu.trans h1.cpu
  kmHolder := h2.kmHolder.trans h1.kmHolder
  ipl := h2.ipl.trans h1.ipl
  ints := h2.ints.trans h1.ints
  pid x := (h2.pid x).trans (h1.pid x)

theorem Spares.setProc {p : ℕ} {f : Proc → Proc} (h : Spares s s') (hf : ∀ a, (f a).pPid = a.pPid) :
    Spares s (s'.setProc p f) := by
  refine ⟨h.thr, h.queue, h.curthr, h.curproc, h.cpu, h.kmHolder, h.ipl, h.ints, fun x => ?_⟩
  rw [State.setProc_proc]
  split_ifs with hx
  · rw [hf, hx, h.pid]
  · exact h.pid x

theorem Relink.spares {A : ℕ → Prop} (h : Relink A s s') : Spares s s' := by
  have hchild : ∀ (u : State) (p : ℕ), Spares u (childRemove u p) := by
    intro u p
    refine Spares.setProc ?_ fun _ => rfl
    exact ⟨rfl, rfl, rfl, rfl, rfl, rfl, rfl, rfl, fun _ => rfl⟩
  cases h with
  | unlink p => exact hchild s p
  | adopt _ h =>
    unfold Sched.adopt at h
    split at h
    · cases h
    cases h
    refine Spares.setProc (Spares.setProc (Spares.setProc (.refl s) ?_) ?_) ?_ <;> exact fun _ => rfl
  | destroy h =>
    unfold kthreadDestroy at h
    split_ifs at h
    cases h
    refine Spares.setProc ?_ fun _ => rfl
    exact ⟨rfl, rfl, rfl, rfl, rfl, rfl, rfl, rfl, fun _ => rfl⟩
  | @free _ p h =>
    obtain ⟨s1, h1, s2, h2, rfl⟩ := procFree_parts h
    have hlist : Spares s s1 := by
      rcases h1 with rfl | rfl
      · exact .refl _
      refine Spares.setProc ?_ fun _ => rfl
      exact ⟨rfl, rfl, rfl, rfl, rfl, rfl, rfl, rfl, fun _ => rfl⟩
    have hunlink : Spares s1 s2 := by
      rcases h2 with rfl | rfl
      · exact .refl _
      · exact hchild s1 p
    exact (hlist.trans hunlink).trans ⟨rfl, rfl, rfl, rfl, rfl, rfl, rfl, rfl, fun _ => rfl⟩

theorem Relinks.spares {A : ℕ → Prop} (h : Relinks A s s') : Spares s s' := h.rel .refl .trans Relink.spares

/-- The scan also tells the pid of a child, or none. -/
theorem reapScan_spares (l : List ℕ) {w w' : Wait} (h : reapScan l w s = .ok (w', s')) :
    Spares s s' ∧ (w'.pid = w.pid ∨ ∃ p ∈ l, w'.pid = (s.proc p).pPid) := by
  induction l generalizing w w' s s' with
  | nil =>
    cases h
    exact ⟨.refl s, .inl rfl⟩
  | cons p l ih =>
    unfold reapScan at h
    split_ifs at h
    · obtain ⟨hs, hw⟩ := ih h
      exact ⟨hs, hw.imp_right (.imp fun _ => .imp_left (List.mem_cons_of_mem _))⟩
    obtain ⟨s1, h1, h2⟩ := ok_of_bind h
    have hs1 := (unlinkChild_relinks (A := fun _ => True) (fun _ _ => trivial) h1).spares
    split at h2
    · obtain ⟨s2, h3, h4⟩ := ok_of_bind h2
      cases h4
      exact ⟨hs1.trans (Relink.destroy (A := fun _ => True) h3).spares, .inr ⟨p, List.mem_cons_self, rfl⟩⟩
    obtain ⟨hs, hw⟩ := ih h2
    refine ⟨hs1.trans hs, .inr ?_⟩
    rcases hw with hw | ⟨q, hq, hpid⟩
    · exact ⟨p, List.mem_cons_self, hw⟩
    · exact ⟨q, List.mem_cons_of_mem _ hq, hpid.trans (hs1.pid q)⟩

end Weenix.Sched
