import Weenix.Proofs.ProcCalls

/-! Processes and their threads. With one thread to a process and nothing cancelled, the
thread of a process that has exited does not run again, a thread waits only for children of
its own process, and so a child is there until its parent disposes of it. -/

namespace Weenix.Sched

variable {s s' : State} {q : Queue} {c : Code} {t x m p idle : ℕ} {T : ℕ → Prop}

theorem Orderly.not_exited (ho : Orderly s) (ht : t ∈ (s.queue q).tqList) : (s.thr t).ktState ≠ .exited := by
  intro hst
  have hfit := ho.fit q t ht
  rw [hst, Fit] at hfit
  split_ifs at hfit
  simp at hfit

/-- Every process has at most one thread, and that of an exited process has exited. -/
structure Threads (s : State) : Prop where
  cur : s.curthr ∈ s.thrObjs
  onq : ∀ q t, t ∈ (s.queue q).tqList → t ∈ s.thrObjs
  objs : s.thrObjs.Nodup
  owner : ∀ t ∈ s.thrObjs, (s.thr t).ktProc ∈ s.procObjs ∧ (s.proc (s.thr t).ktProc).pThreads = [t]
  own : ∀ p ∈ s.procObjs, ∀ t ∈ (s.proc p).pThreads, t ∈ s.thrObjs ∧ (s.thr t).ktProc = p
  dead : ∀ p ∈ s.procObjs, (s.proc p).pState = .dead →
    ∃ t, (s.proc p).pThreads = [t] ∧ (s.thr t).ktState = .exited

/-- The rests of `sched_switch`. -/
def Code.Inner : Code → Prop
  | .schedSwitch | .intrWait _ => True
  | _ => False

/-- The rests of calls that a thread makes with no other call open. -/
def Code.Outer : Code → Prop
  | .exitReturn | .lockReturn _ _ | .lockCancellableReturn _ _ | .waitAny _ | .waitPid _ _ _ | .ret _
  | .start => True
  | _ => False

inductive Shape : List Code → Prop
  | nil : Shape []
  | outer (o : Code) : o.Outer → Shape [o]
  | inner (c : Code) : c.Inner → Shape [c]
  | both (c o : Code) : c.Inner → o.Outer → Shape [c, o]

structure ProcInv (idle : ℕ) (s : State) : Prop where
  stable : Stable s
  orderly : Orderly s
  tree : ProcTree idle s
  threads : Threads s
  shape : ∀ x ∈ s.thrObjs, Shape (point s x)
  waits : ∀ x ∈ s.thrObjs, ∀ pid p st, .waitPid pid p st ∈ point s x →
    p ∈ (s.proc (s.thr x).ktProc).pChildren
  ending : (s.proc s.curproc).pState = .dead → ∃ c : Code, c.Inner ∧ s.cpu.frames = [c, .exitReturn]

namespace ProcInv

section
variable (h : ProcInv idle s)
include h

theorem curproc : s.curproc ∈ s.procObjs ∧ (s.proc s.curproc).pThreads = [s.curthr] := by
  rw [h.stable.proc]
  exact h.threads.owner _ h.threads.cur

/-- Two threads of one process are one. -/
theorem thread_unique (ht : t ∈ s.thrObjs) (hx : x ∈ s.thrObjs)
    (he : (s.thr t).ktProc = (s.thr x).ktProc) : t = x := by
  have h1 := (h.threads.owner t ht).2
  rw [he, (h.threads.owner x hx).2] at h1
  exact (List.singleton_inj.1 h1).symm

/-- A thread that has not exited belongs to a process that has not. -/
theorem alive_of_state (ht : t ∈ s.thrObjs) (hst : (s.thr t).ktState ≠ .exited) :
    (s.proc (s.thr t).ktProc).pState ≠ .dead := by
  intro hd
  obtain ⟨hp, hone⟩ := h.threads.owner t ht
  obtain ⟨u, hu, hex⟩ := h.threads.dead _ hp hd
  obtain rfl : t = u := List.singleton_inj.1 (hone.symm.trans hu)
  exact hst hex

/-- So does a queued thread. -/
theorem alive_of_mem (ht : t ∈ (s.queue q).tqList) : (s.proc (s.thr t).ktProc).pState ≠ .dead :=
  h.alive_of_state (h.threads.onq q t ht) (h.orderly.not_exited ht)

/-- With no call open, or with one on top that is not the switch, the process is alive. -/
theorem alive (hf : ∀ c : Code, c.Inner → s.cpu.frames ≠ [c, .exitReturn]) :
    (s.proc s.curproc).pState ≠ .dead := by
  intro hd
  obtain ⟨c, hc, hfr⟩ := h.ending hd
  exact hf c hc hfr

theorem alive_nil (hf : s.cpu.frames = []) : (s.proc s.curproc).pState ≠ .dead :=
  h.alive fun c _ he => by
    rw [hf] at he
    cases he

end

end ProcInv

theorem Threads.calls (h : Threads s) (ho : Orderly s) (hc : Calls T s s')
    (hT : ∀ x, T x → x ∈ s.thrObjs ∧ (s.proc (s.thr x).ktProc).pState ≠ .dead) : Threads s' := by
  refine ⟨?_, fun q t ht => ?_, hc.thrObjs ▸ h.objs, fun t ht => ?_, fun p hp t ht => ?_, fun p hp hd => ?_⟩
  · rw [hc.curthr, hc.thrObjs]
    exact h.cur
  · rw [hc.thrObjs]
    rcases hc.onq q t ht with hTt | ⟨r, hr⟩
    · exact (hT t hTt).1
    · exact h.onq r t hr
  · rw [hc.thrObjs] at ht
    rw [hc.ktProc, hc.proc, hc.procObjs]
    exact h.owner t ht
  · rw [hc.procObjs] at hp
    rw [hc.proc] at ht
    rw [hc.ktProc, hc.thrObjs]
    exact h.own p hp t ht
  rw [hc.procObjs] at hp
  rw [hc.proc] at hd ⊢
  obtain ⟨t, ht, hst⟩ := h.dead p hp hd
  refine ⟨t, ht, (hc.state t (fun hTt => (hT t hTt).2 ?_) fun q hq => ho.not_exited hq hst).trans hst⟩
  rwa [(h.own p hp t (ht ▸ List.mem_singleton_self t)).2]

theorem ProcTree.calls (h : ProcTree idle s) (hc : Calls T s s') : ProcTree idle s' :=
  h.congr (fun _ => hc.proc ▸ .refl _) hc.procList hc.procObjs hc.nextPid hc.procInitproc

/-- Only the stack of the running thread changes. -/
theorem Calls.point_eq (hc : Calls T s s') (x : ℕ) :
    point s' x = if x = s.curthr then s'.cpu.frames else point s x := by
  rw [point, point, hc.curthr, hc.ktCtx]
  split_ifs <;> rfl

/-- A call that does not concern processes. -/
theorem ProcInv.calls (h : ProcInv idle s) (hst : Stable s') (ho : Orderly s') (hc : Calls T s s')
    (hT : ∀ x, T x → x ∈ s.thrObjs ∧ (s.proc (s.thr x).ktProc).pState ≠ .dead) (hshape : Shape s'.cpu.frames)
    (hwait : ∀ pid p st, .waitPid pid p st ∈ s'.cpu.frames → p ∈ (s.proc s.curproc).pChildren)
    (hend : (s.proc s.curproc).pState = .dead → ∃ c : Code, c.Inner ∧ s'.cpu.frames = [c, .exitReturn]) :
    ProcInv idle s' := by
  refine ⟨hst, ho, h.tree.calls hc, h.threads.calls h.orderly hc hT, fun x hx => ?_, fun x hx pid p st hm => ?_,
    fun hd => ?_⟩
  · rw [hc.thrObjs] at hx
    rw [hc.point_eq]
    split_ifs
    · exact hshape
    · exact h.shape x hx
  · rw [hc.thrObjs] at hx
    rw [hc.point_eq] at hm
    rw [hc.proc, hc.ktProc]
    split_ifs at hm with hxc
    · rw [hxc, ← h.stable.proc]
      exact hwait pid p st hm
    · exact h.waits x hx pid p st hm
  · rw [hc.proc, hc.curproc] at hd
    exact hend hd

end Weenix.Sched
