import Weenix.Proofs.ProcInv

/-! `do_exit` of a process other than init: its children move to the init process, it is
marked dead, its parent is woken, and its thread does not come back from the switch. -/

namespace Weenix.Sched

variable {s s' s₁ : State} {x i idle : ℕ} {status : ℤ}

def State.exiting (s : State) : State :=
  s.leaving.setProc s.curproc fun q => { q with pFiles := q.pFiles.map fun _ => none }

theorem State.exiting_proc (s : State) (x : ℕ) : SameNode (s.proc x) (s.exiting.proc x) ∧
    (s.exiting.proc x).pThreads = (s.proc x).pThreads := by
  rw [State.exiting, State.setProc_proc]
  split_ifs with hx
  · rw [hx]
    exact ⟨⟨rfl, rfl, rfl, rfl, rfl, rfl⟩, rfl⟩
  · exact ⟨.refl _, rfl⟩

theorem doExit_ok (hi : s.procInitproc ≠ some s.curproc) (h : doExit s status = .ok s') :
    1 ≤ (s.proc s.curproc).pPid ∧ ∃ s₁ parent, reparent (s.proc s.curproc).pChildren s.exiting = .ok s₁ ∧
      ((s₁.died s.curproc status).proc s.curproc).pPproc = some parent ∧
      wakeParent parent ((s₁.died s.curproc status).proc parent).pThreads (s₁.died s.curproc status) = .ok s' := by
  obtain ⟨-, hpid, h⟩ := doExit_starts h
  have hloop : cleanupLoop s.leaving status = cleanupRest s.leaving status := by
    rw [cleanupLoop, if_neg]
    exact fun hx => hi hx.1
  exact ⟨hpid, cleanupRest_ok (hloop ▸ h)⟩

namespace ProcInv

/-- A process other than idle runs only when there is an init process. -/
theorem exists_init (h : ProcInv idle s) (hpid : 1 ≤ (s.proc s.curproc).pPid) :
    ∃ i, s.procInitproc = some i := by
  refine Option.ne_none_iff_exists'.1 fun hn => ?_
  have hmem := (h.tree.same _).2 h.curproc.1
  rw [(h.tree.fresh hn).1, List.mem_singleton] at hmem
  rw [hmem, h.tree.root.2.1, PID_IDLE] at hpid
  omega

/-- The tree and the threads once the process is marked dead. -/
theorem died (h : ProcInv idle s) (hpid : 1 ≤ (s.proc s.curproc).pPid) (hi : s.procInitproc = some i)
    (hne : s.curproc ≠ i) (hs : reparent (s.proc s.curproc).pChildren s.exiting = .ok s₁) (status : ℤ) :
    ProcTree idle (s₁.died s.curproc status) ∧ Moves s.curproc s.exiting s₁ := by
  have htree : ProcTree idle s.exiting := h.tree.congr (fun x => (s.exiting_proc x).1) rfl rfl rfl rfl
  have hch := (s.exiting_proc s.curproc).1.pChildren
  have hroot : s.curproc ≠ idle := by
    intro he
    rw [he, h.tree.root.2.1, PID_IDLE] at hpid
    omega
  obtain ⟨s2, h1, h2, h3, h4⟩ := ProcTree.reparent hne hroot _ htree hi h.curproc.1 hch
  obtain rfl : s₁ = s2 := Except.ok.inj (hs.symm.trans h1)
  have hi1 : s₁.procInitproc = some i := by
    rw [h4.same]
    exact hi
  exact ⟨h2.die hi1 hne h3 status, h4⟩

end ProcInv

/-- What is left of `s` in the state before the parent is woken. -/
structure Died (s u : State) : Prop where
  thr : u.thr = (s.setState s.curthr .exited).thr
  queue : u.queue = s.queue
  procObjs : u.procObjs = s.procObjs
  thrObjs : u.thrObjs = s.thrObjs
  curthr : u.curthr = s.curthr
  curproc : u.curproc = s.curproc
  frames : u.cpu.frames = .schedSwitch :: .exitReturn :: s.cpu.frames
  threads : ∀ x, (u.proc x).pThreads = (s.proc x).pThreads
  state : ∀ x, x ≠ s.curproc → (u.proc x).pState = (s.proc x).pState
  grows : ∀ q ∈ s.procObjs, q ≠ s.curproc → ∀ x ∈ (s.proc q).pChildren, x ∈ (u.proc q).pChildren

theorem Moves.died (h : Moves s.curproc s.exiting s₁) (status : ℤ) : Died s (s₁.died s.curproc status) := by
  have hnode : ∀ x, (s₁.proc x).pThreads = (s.proc x).pThreads ∧ (s₁.proc x).pState = (s.proc x).pState :=
    fun x => ⟨(h.node x).1.trans (s.exiting_proc x).2, (h.node x).2.1.trans (s.exiting_proc x).1.pState⟩
  have hgrows : ∀ q ∈ s.procObjs, q ≠ s.curproc → ∀ x ∈ (s.proc q).pChildren, x ∈ (s₁.proc q).pChildren := by
    intro q hq hqc x hx
    refine h.grows q hqc x ?_ hq
    rw [(s.exiting_proc q).1.pChildren]
    exact hx
  have hdied : ∀ x, (s₁.died s.curproc status).proc x =
      if x = s.curproc then { s₁.proc s.curproc with pState := .dead, pStatus := status } else s₁.proc x :=
    fun x => State.setProc_proc _ _ _ _
  refine ⟨(congrArg State.thr h.same :), (congrArg State.queue h.same :), (congrArg State.procObjs h.same :),
    (congrArg State.thrObjs h.same :), (congrArg State.curthr h.same :), (congrArg State.curproc h.same :),
    (congrArg (fun x => x.cpu.frames) h.same :), fun x => ?_, fun x hx => ?_, fun q hq hqc x hx => ?_⟩
  · rw [hdied]
    split_ifs with hx
    · rw [hx]
      exact (hnode _).1
    · exact (hnode x).1
  · rw [hdied, if_neg hx]
    exact (hnode x).2
  · rw [hdied, if_neg hqc]
    exact hgrows q hq hqc x hx

namespace Died

variable {u : State}

theorem thr_ne (h : Died s u) (hx : x ≠ s.curthr) : u.thr x = s.thr x := by
  rw [h.thr, State.setState_thr, if_neg hx]

theorem ktProc (h : Died s u) (x : ℕ) : (u.thr x).ktProc = (s.thr x).ktProc := by
  rw [h.thr, State.setState_thr]
  split_ifs with hx
  · rw [hx]
  · rfl

theorem orderly (h : Died s u) (ho : Orderly s) (hw : (s.thr s.curthr).ktWchan = none) : Orderly u := by
  have heff : Effects anyCall s (s.setState s.curthr .exited) := .of (.state _ _ _ hw)
  exact (heff.orderly ho).congr h.thr h.queue

theorem toThreads (h : Died s u) (hinv : ProcInv idle s) : Threads u := by
  refine ⟨?_, fun q t ht => ?_, h.thrObjs ▸ hinv.threads.objs, fun t ht => ?_, fun p hp t ht => ?_, fun p hp hd => ?_⟩
  · rw [h.curthr, h.thrObjs]
    exact hinv.threads.cur
  · rw [h.queue] at ht
    rw [h.thrObjs]
    exact hinv.threads.onq q t ht
  · rw [h.thrObjs] at ht
    rw [h.ktProc, h.procObjs, h.threads]
    exact hinv.threads.owner t ht
  · rw [h.procObjs] at hp
    rw [h.threads] at ht
    rw [h.thrObjs, h.ktProc]
    exact hinv.threads.own p hp t ht
  rw [h.procObjs] at hp
  rw [h.threads]
  by_cases hpc : p = s.curproc
  · refine ⟨s.curthr, hpc ▸ hinv.curproc.2, ?_⟩
    rw [h.thr, State.setState_thr, if_pos rfl]
  rw [h.state p hpc] at hd
  obtain ⟨t, ht, hex⟩ := hinv.threads.dead p hp hd
  have htc : t ≠ s.curthr := by
    rintro rfl
    have hown := (hinv.threads.own p hp _ (ht ▸ List.mem_singleton_self _)).2
    exact hpc (hown.symm.trans hinv.stable.proc.symm)
  refine ⟨t, ht, ?_⟩
  rw [h.thr_ne htc]
  exact hex

end Died

/-- How `do_exit` goes: what is left before the parent is woken, and where the thread stands. -/
theorem ProcInv.exit_spec (h : ProcInv idle s) (hni : s.procInitproc ≠ some s.curproc)
    (hs : doExit s status = .ok s') : ∃ u, ProcTree idle u ∧ Died s u ∧ Calls (fun _ => False) u s' ∧
      ∀ x, point s' x = if x = s.curthr then .schedSwitch :: .exitReturn :: s.cpu.frames else point s x := by
  obtain ⟨hpid, s₁, parent, h1, -, h2⟩ := doExit_ok hni hs
  obtain ⟨i, hi⟩ := h.exists_init hpid
  obtain ⟨htree, hmoves⟩ := h.died hpid hi (fun he => hni (he ▸ hi)) h1 status
  have hdied := hmoves.died status
  have hcalls : Calls (fun _ => False) (s₁.died s.curproc status) s' := wakes_calls.wakeParent trivial _ h2
  have heff : Effects (handler True) (s₁.died s.curproc status) s' :=
    (wakes_effects fun _ => Queue.noConfusion).wakeParent (fun _ => Queue.noConfusion) _ h2 (.inl trivial)
  have hcpu := heff.cpu fun _ => id
  refine ⟨_, htree, hdied, hcalls, fun x => ?_⟩
  rw [hcalls.point_eq, hdied.curthr, hcpu, hdied.frames]
  split_ifs with hx
  · rfl
  · rw [point, point, hdied.curthr, if_neg hx, if_neg hx, hdied.thr_ne hx]

theorem ProcInv.exit (h : ProcInv idle s) (hst : Stable s') (ho : Orderly s') (hf : s.cpu.frames = [])
    (hw : (s.thr s.curthr).ktWchan = none) (hni : s.procInitproc ≠ some s.curproc)
    (hs : doExit s status = .ok s') : ProcInv idle s' := by
  obtain ⟨u, htree, hdied, hcalls, hpoint⟩ := h.exit_spec hni hs
  have hcur : s'.curthr = s.curthr := hcalls.curthr.trans hdied.curthr
  have hframes : s'.cpu.frames = [.schedSwitch, .exitReturn] := by
    rw [← point_cur, hcur, hpoint, if_pos rfl, hf]
  have hobjs : s'.thrObjs = s.thrObjs := hcalls.thrObjs.trans hdied.thrObjs
  refine ⟨hst, ho, htree.calls hcalls, (hdied.toThreads h).calls (hdied.orderly h.orderly hw) hcalls
    (fun _ => False.elim), fun x hx => ?_, fun x hx pid p st hm => ?_, fun _ => ⟨.schedSwitch, trivial, hframes⟩⟩
  · rw [hobjs] at hx
    rw [hpoint, hf]
    split_ifs
    · exact .both _ _ trivial trivial
    · exact h.shape x hx
  rw [hobjs] at hx
  rw [hpoint, hf] at hm
  split_ifs at hm with hxc
  · simp at hm
  rw [hcalls.proc, hcalls.ktProc, hdied.ktProc]
  -- another thread belongs to another process, whose children stay
  have hpc : (s.thr x).ktProc ≠ s.curproc := fun he =>
    hxc (h.thread_unique hx h.threads.cur (he.trans h.stable.proc))
  exact hdied.grows _ (h.threads.owner x hx).1 hpc p (h.waits x hx pid p st hm)

end Weenix.Sched
