import Weenix.Proofs.ProcExit
import Weenix.Proofs.ProcWait
import Weenix.Proofs.SchedSwitch

/-! Runs of processes that are created, exit and wait, with one thread to a process and
nothing cancelled. -/

namespace Weenix.Sched

open Runs Exec Function List

variable {s s' : State} {op : Op} {c : Code} {l : List Code} {t x m p idle : ℕ}

/-! ### Queues without cancellation -/

def Op.Cancels : Op → Prop
  | .call (.cancel _ _) | .call (.kill _ _) | .call .killAll => True
  | _ => False

section
variable (hst : Stable s) (ho : Orderly s)
include hst ho

theorem Orderly.neutral_call {c : Call} (hen : Enabled s (.call c))
    (hc : c.Neutral) (hs : call s c = .ok s') : Orderly s' := by
  have hw := hst.wchan (not_switching_nil hen.1)
  have hacts := call_acts anyCall_ordinary hc hen (fun _ _ _ => trivial) hw (hst.toFramed.unqueued hw _) hs
  exact hacts.effects.orderly ho

theorem Orderly.lock {c : Call} (hen : Enabled s (.call c)) (hc : c.Locks m)
    (hs : call s c = .ok s') : Orderly s' := by
  have hw := hst.wchan (not_switching_nil hen.1)
  obtain ⟨s1, k, hacts, rfl⟩ := lock_acts anyCall_ordinary.toSleepy hw (hst.toFramed.unqueued hw _) trivial
    (fun _ => ⟨trivial, trivial⟩) hc hs
  exact (hacts.effects.orderly ho).congr rfl rfl

theorem Orderly.call {c : Call} (hen : Enabled s (.call c))
    (hc : ¬ (Op.call c).Cancels) (hs : call s c = .ok s') : Orderly s' := by
  cases c with
  | lock m => exact ho.lock hst hen (.inl rfl) hs
  | lockCancellable m => exact ho.lock hst hen (.inr (.inl rfl)) hs
  | unlock m => exact ho.lock hst hen (.inr (.inr rfl)) hs
  | cancel | kill | killAll => exact absurd trivial hc
  | _ => exact ho.neutral_call hst hen trivial hs

theorem Orderly.cont {b : Bool} (hf : s.cpu.frames = c :: l)
    (hi : ∀ ipl, c ≠ .intrWait ipl) (hs : exec s.pop c = .ok (b, s')) : Orderly s' := by
  have hpop : Orderly s.pop := ho.congr rfl rfl
  by_cases hsw : c = .schedSwitch
  · subst hsw
    rcases hpop.schedSwitch hs with ⟨-, rfl⟩ | ⟨t, -, k, rfl⟩
    · exact hpop.congr rfl rfl
    refine Orderly.contextSwitch ?_ _ _
    exact ((takeRunq_handler k s.pop).orderly hpop).congr rfl rfl
  · rcases (hst.own c (hf ▸ mem_cons_self)).neutral hsw with hn | ⟨ipl, rfl⟩
    · have hw := hst.wchan (not_switching_cons hf hsw hi)
      obtain ⟨-, hacts⟩ := exec_acts anyCall_ordinary hn (hst.toFramed.pop.unqueued hw _) hs
      exact hacts.effects.orderly hpop
    cases hs
    refine Orderly.contextSwitch ?_ _ _
    exact hpop.congr rfl rfl

theorem Orderly.step (hen : Enabled s op) (hc : ¬ op.Cancels) (hs : step s op = .ok s') : Orderly s' := by
  cases op with
  | call c => exact ho.call hst hen hc hs
  | cont =>
    obtain ⟨c, l, b, hf, hi, h1⟩ := step_cont hen hs
    exact ho.cont hst hf hi h1
  | intr ws =>
    rcases step_intr hen hs with ⟨s1, ipl, l, hf, -, heff, rfl⟩ | ⟨hf, h1⟩
    · exact (heff.orderly ho).congr rfl rfl
    have hh : Effects (handler True) s s' := handler_effects h1 (.inl trivial)
    exact hh.orderly ho

end

/-! ### Calls that do not concern processes -/

/-- The stacks that such calls leave: nothing open, or a sleep and what follows it. -/
def Resting (l : List Code) : Prop := l = [] ∨ l = [.schedSwitch] ∨
  ∃ o : Code, o.Outer ∧ (∀ pid p st, o ≠ .waitPid pid p st) ∧ (l = [o] ∨ l = [.schedSwitch, o])

theorem Resting.shape (h : Resting l) : Shape l := by
  rcases h with rfl | rfl | ⟨o, ho, -, rfl | rfl⟩
  · exact .nil
  · exact .inner _ trivial
  · exact .outer o ho
  · exact .both _ o trivial ho

theorem Resting.no_wait (h : Resting l) (pid : ℤ) (p : ℕ) (st : StatusPtr) : .waitPid pid p st ∉ l := by
  rcases h with rfl | rfl | ⟨o, -, ho, rfl | rfl⟩
  · simp
  · simp
  · simpa using (ho pid p st).symm
  · simpa using (ho pid p st).symm

/-- A mutex or a wait channel puts the caller to sleep below the frame of the call. -/
theorem Resting.sleep {o : Code} (ho : o.Outer) (hn : ∀ pid p st, o ≠ .waitPid pid p st)
    (hf : s.cpu.frames = []) : Resting (.schedSwitch :: o :: s.cpu.frames) := by
  rw [hf]
  exact .inr (.inr ⟨o, ho, hn, .inr rfl⟩)

theorem schedMakeRunnable_cpu (h : schedMakeRunnable s t = .ok s') : s'.cpu = s.cpu := by
  obtain ⟨s1, rfl | ⟨-, -, rfl⟩, -, rfl⟩ := schedMakeRunnable_ok h <;> rfl

theorem quiet_calls {c : Call} (hc : c.Quiet) (hf : s.cpu.frames = []) (hs : call s c = .ok s') :
    Calls (fun x => x = s.curthr ∨ c = .makeRunnable x) s s' ∧ Resting s'.cpu.frames := by
  cases c with
  | create | thread | exit | cancel | kill | killAll | waitpid | setCwd | openFile => exact hc.elim
  | lock m =>
    obtain ⟨-, ⟨-, rfl⟩ | ⟨-, -, rfl⟩⟩ := kmutexLock_ok hs
    · exact ⟨.of_same rfl, .inl hf⟩
    exact ⟨((Calls.setipl s IPL_HIGH).trans (.push _ _)).trans (.sleep (.inl rfl) _ _),
      .sleep trivial (fun _ _ _ => Code.noConfusion) hf⟩
  | unlock m =>
    obtain ⟨-, ⟨-, rfl⟩ | ⟨t, hl, -, rfl⟩⟩ := kmutexUnlock_ok hs
    · exact ⟨.of_same rfl, .inl hf⟩
    exact ⟨(Calls.wakeup (mem_of_getLast? hl)).trans
      (.of_same rfl), .inl hf⟩
  | lockCancellable m =>
    have hopen : Calls (fun x => x = s.curthr ∨ Call.lockCancellable m = .makeRunnable x) s (s.lockWaits m) :=
      (Calls.setipl s IPL_HIGH).trans (.push _ _)
    obtain ⟨-, ⟨-, rfl⟩ | ⟨-, ⟨-, rfl⟩ | ⟨-, rfl⟩⟩⟩ := kmutexLockCancellable_ok hs
    · exact ⟨.of_same rfl, .inl hf⟩
    · refine ⟨hopen.trans (.setState (.inl rfl) _), .inr (.inr
        ⟨.lockCancellableReturn m s.ipl, trivial, fun _ _ _ => Code.noConfusion, .inl ?_⟩)⟩
      change _ :: s.cpu.frames = _
      rw [hf]
    · exact ⟨hopen.trans (.sleep (.inl rfl) _ _), .sleep trivial (fun _ _ _ => Code.noConfusion) hf⟩
  | sleep n =>
    obtain ⟨-, rfl⟩ := schedSleepOn_ok hs
    exact ⟨.sleep (.inl rfl) _ _, .inr (.inl (congrArg _ hf))⟩
  | sleepCancellable n =>
    obtain ⟨⟨b, s1⟩, h1, h2⟩ := ok_of_bind hs
    rcases schedCancellableSleepOn_ok h1 with ⟨rfl, -, rfl⟩ | ⟨rfl, -, rfl⟩
    · obtain rfl := Except.ok.inj h2
      have hstate : Calls (fun x => x = s.curthr ∨ Call.sleepCancellable n = .makeRunnable x) s
          ((s.push (.ret 0)).setState s.curthr .sleepCancellable) :=
        (Calls.push s (.ret 0)).trans (.setState (.inl rfl) _)
      exact ⟨hstate.trans (.of_same rfl), .inl hf⟩
    · obtain rfl := Except.ok.inj h2
      exact ⟨(Calls.push s _).trans (.sleep (.inl rfl) _ _), .sleep trivial (fun _ _ _ => Code.noConfusion) hf⟩
  | wakeup n =>
    obtain ⟨⟨r, s1⟩, h1, h2⟩ := ok_of_bind hs
    cases h2
    have heff := (wakes_effects (σ := handler True) fun _ => Queue.noConfusion).wakeupOn (fun _ => Queue.noConfusion) h1
      (.inl trivial)
    refine ⟨wakes_calls.wakeupOn trivial h1, .inl ?_⟩
    rw [heff.cpu fun _ => id, hf]
  | broadcast n =>
    have heff := (wakes_effects (σ := handler True) fun _ => Queue.noConfusion).broadcastOn (fun _ => Queue.noConfusion)
      Queue.noConfusion hs (.inl trivial)
    refine ⟨wakes_calls.broadcastOn trivial Queue.noConfusion hs, .inl ?_⟩
    rw [heff.cpu fun _ => id, hf]
  | makeRunnable t =>
    refine ⟨schedMakeRunnable_calls (.inr rfl) hs, .inl ?_⟩
    rw [schedMakeRunnable_cpu hs, hf]
  | yield =>
    obtain ⟨s1, h1, h2⟩ := ok_of_bind hs
    obtain rfl := Except.ok.inj h2
    refine ⟨(schedMakeRunnable_calls (.inl rfl) h1).trans (.push _ _), .inr (.inl ?_)⟩
    change .schedSwitch :: s1.cpu.frames = _
    rw [schedMakeRunnable_cpu h1, hf]
  | switch =>
    obtain rfl := Except.ok.inj hs
    exact ⟨.push s _, .inr (.inl (congrArg _ hf))⟩
  | store | setipl =>
    obtain rfl := Except.ok.inj hs
    exact ⟨.of_same rfl, .inl hf⟩

/-! ### Steps -/

/-- The runs looked at: nothing is cancelled, there is one thread to a process, the init
process does not exit, there is a pid left for a new process, a thread that has exited is not
made runnable, and `do_waitpid` is called for -1 or the pid of a process. -/
def TreeAllowed (s : State) : Op → Prop
  | .call (.cancel _ _) | .call (.kill _ _) | .call .killAll => False
  | .call (.makeRunnable t) => (s.thr t).ktState ≠ .exited
  | .call (.thread _ p) => (s.proc p).pThreads = []
  | .call (.create _) => (s.procList.length : ℤ) < PROC_MAX_COUNT
  | .call (.exit _) => s.procInitproc ≠ some s.curproc
  | .call (.waitpid pid _ _) => pid = -1 ∨ procLookup s pid ≠ none
  | _ => True

def TreeStep (s : State) (op : Op) (s' : State) : Prop :=
  Enabled s op ∧ TreeAllowed s op ∧ step s op = .ok s'

/-- A new process concerns no thread. -/
theorem Created.threads {pid : ℤ} (h : Created s p pid s') :
    s'.thr = s.thr ∧ s'.thrObjs = s.thrObjs ∧ point s' = point s := by
  have hthr : s'.thr = s.thr := (congrArg State.thr h.rest :)
  refine ⟨hthr, (congrArg State.thrObjs h.rest :), point_congr (congrArg State.curthr h.rest :)
    (congrArg (fun x => x.cpu.frames) h.rest :) fun x => ?_⟩
  rw [hthr]

namespace ProcInv

section
variable (h : ProcInv idle s) (hst : Stable s') (ho : Orderly s')
include h hst ho

theorem quiet {c : Call} (hc : c.Quiet)
    (hen : Enabled s (.call c)) (ha : TreeAllowed s (.call c)) (hs : call s c = .ok s') : ProcInv idle s' := by
  obtain ⟨hcalls, hrest⟩ := quiet_calls hc hen.1 hs
  have halive := h.alive_nil hen.1
  refine h.calls hst ho hcalls (fun x hx => ?_) hrest.shape (fun pid p st hm => absurd hm (hrest.no_wait _ _ _))
    fun hd => absurd hd halive
  rcases hx with rfl | rfl
  · exact ⟨h.threads.cur, h.stable.proc ▸ halive⟩
  · exact ⟨hen.2.1, h.alive_of_state hen.2.1 ha⟩

/-- The caller changes its files or its directory. -/
theorem setProc (p : ℕ) {f : Proc → Proc}
    (hs' : s' = s.setProc p f) (hf : ∀ a, SameNode a (f a) ∧ (f a).pThreads = a.pThreads) :
    ProcInv idle s' := by
  have hnode : ∀ x, SameNode (s.proc x) (s'.proc x) ∧ (s'.proc x).pThreads = (s.proc x).pThreads := by
    intro x
    rw [hs', State.setProc_proc]
    split_ifs with hx
    · exact hx ▸ hf _
    · exact ⟨.refl _, rfl⟩
  have hstate := fun x => (hnode x).1.pState
  have hthr := fun x => (hnode x).2
  subst hs'
  refine ⟨hst, ho, h.tree.setProc p f fun a => (hf a).1, ⟨h.threads.cur, h.threads.onq, h.threads.objs,
    fun t ht => ?_, fun q hq t ht => ?_, fun q hq hd => ?_⟩, h.shape, fun x hx pid q st hm => ?_, fun hd => ?_⟩
  · rw [hthr]
    exact h.threads.owner t ht
  · rw [hthr] at ht
    exact h.threads.own q hq t ht
  · rw [hthr]
    rw [hstate] at hd
    exact h.threads.dead q hq hd
  · rw [(hnode _).1.pChildren]
    exact h.waits x hx pid q st hm
  · rw [hstate] at hd
    exact h.ending hd

theorem create (hf : s.cpu.frames = [])
    (hnew : p ∉ s.procObjs) (hlen : (s.procList.length : ℤ) < PROC_MAX_COUNT)
    (hs : procCreate s p = .ok s') : ProcInv idle s' := by
  have hcur := h.curproc.1
  have halive := h.alive_nil hf
  have hrun : (s.proc s.curproc).pState = .running := by
    cases hc : (s.proc s.curproc).pState with
    | running => rfl
    | dead => exact absurd hc halive
  obtain ⟨pid, hfree, hpos, hlt, hinit, hidle, hc⟩ := h.tree.procCreate_spec hnew hcur hlen hs
  obtain ⟨cwd, hborn⟩ := hc.born
  obtain ⟨hthr, hobjs, hpoint⟩ := hc.threads
  have hct : s'.curthr = s.curthr := (congrArg State.curthr hc.rest :)
  have hcp : s'.curproc = s.curproc := (congrArg State.curproc hc.rest :)
  have hmem : ∀ x, x ∈ s'.procObjs ↔ x = p ∨ x ∈ s.procObjs := by
    intro x
    rw [hc.procObjs, mem_cons]
  have hnode : ∀ x ∈ s.procObjs, (s'.proc x).pThreads = (s.proc x).pThreads ∧
      (s'.proc x).pState = (s.proc x).pState ∧ ∀ y ∈ (s.proc x).pChildren, y ∈ (s'.proc x).pChildren := by
    intro x hx
    have hxn : x ≠ p := fun he => hnew (he ▸ hx)
    by_cases hxc : x = s.curproc
    · rw [hxc, hc.cur]
      exact ⟨rfl, rfl, fun y hy => mem_append_left _ hy⟩
    · rw [hc.other x hxn hxc]
      exact ⟨rfl, rfl, fun y hy => hy⟩
  refine ⟨hst, ho, h.tree.created hnew hcur hrun hfree hpos hlt hinit hidle hc, ⟨?_, fun q t ht => ?_, hobjs ▸ h.threads.objs,
    fun t ht => ?_, fun q hq t ht => ?_, fun q hq hd => ?_⟩, fun x hx => ?_, fun x hx pid q st hm => ?_, fun hd => ?_⟩
  · rw [hct, hobjs]
    exact h.threads.cur
  · have hsub : (s'.queue q).tqList = if q = .wait p then [] else (s.queue q).tqList := by
      rw [hc.rest]
      exact State.reset_list s (.wait p) q
    rw [hsub] at ht
    rw [hobjs]
    split_ifs at ht
    · cases ht
    · exact h.threads.onq q t ht
  · rw [hobjs] at ht
    obtain ⟨h1, h2⟩ := h.threads.owner t ht
    rw [hthr, (hnode _ h1).1]
    exact ⟨(hmem _).2 (.inr h1), h2⟩
  · rcases (hmem q).1 hq with rfl | hq
    · rw [hborn] at ht
      cases ht
    rw [(hnode q hq).1] at ht
    rw [hobjs, hthr]
    exact h.threads.own q hq t ht
  · rcases (hmem q).1 hq with rfl | hq
    · rw [hborn] at hd
      cases hd
    rw [(hnode q hq).2.1] at hd
    rw [(hnode q hq).1, hthr]
    exact h.threads.dead q hq hd
  · rw [hobjs] at hx
    rw [hpoint]
    exact h.shape x hx
  · rw [hobjs] at hx
    rw [hpoint] at hm
    rw [hthr]
    exact (hnode _ (h.threads.owner x hx).1).2.2 _ (h.waits x hx pid q st hm)
  · rw [hcp, (hnode _ hcur).2.1] at hd
    exact absurd hd halive

end

end ProcInv

theorem kthreadCreate_point (htc : t ≠ s.curthr) (x : ℕ) :
    point (kthreadCreate s t p) x = if x = t then [.start] else point s x := by
  have hthr : (kthreadCreate s t p).thr x =
      if x = t then ⟨⟨t, [.start]⟩, p, false, none, .run, true⟩ else s.thr x := by
    change update s.thr t _ x = _
    rw [update_apply]
  rw [point, point, hthr]
  change (if x = s.curthr then _ else _) = _
  split_ifs with hxc hxt
  · exact absurd (hxt.symm.trans hxc) htc
  · rfl
  · rfl
  · rfl

namespace ProcInv

theorem thread (h : ProcInv idle s) (hst : Stable (kthreadCreate s t p)) (ho : Orderly (kthreadCreate s t p))
    (ht : t ∉ s.thrObjs) (htc : t ≠ s.curthr) (hp : p ∈ s.procObjs)
    (hnone : (s.proc p).pThreads = []) : ProcInv idle (kthreadCreate s t p) := by
  have hthr : ∀ x, x ≠ t → (kthreadCreate s t p).thr x = s.thr x := fun x hx => update_of_ne hx _ _
  have hnew : (kthreadCreate s t p).thr t = ⟨⟨t, [.start]⟩, p, false, none, .run, true⟩ :=
    update_self _ _ _
  have hproc : ∀ x, (kthreadCreate s t p).proc x =
      if x = p then { s.proc p with pThreads := [t] } else s.proc x := by
    intro x
    refine (State.setProc_proc _ p x _).trans ?_
    by_cases hx : x = p
    · rw [if_pos hx, if_pos hx]
      rw [hnone]
      rfl
    · rw [if_neg hx, if_neg hx]
  have hnode : ∀ x, SameNode (s.proc x) ((kthreadCreate s t p).proc x) := by
    intro x
    rw [hproc]
    split_ifs with hx
    · rw [hx]
      exact ⟨rfl, rfl, rfl, rfl, rfl, rfl⟩
    · exact .refl _
  have hmem : ∀ x, x ∈ (kthreadCreate s t p).thrObjs ↔ x = t ∨ x ∈ s.thrObjs := fun x => mem_cons
  have hold : ∀ x ∈ s.thrObjs, x ≠ t := fun x hx he => ht (he ▸ hx)
  -- no thread that is there belongs to `p`
  have hother : ∀ x ∈ s.thrObjs, (s.thr x).ktProc ≠ p := by
    rintro x hx rfl
    rw [(h.threads.owner x hx).2] at hnone
    cases hnone
  have hpoint : ∀ x, x ≠ t → point (kthreadCreate s t p) x = point s x := fun x hx =>
    (kthreadCreate_point htc x).trans (if_neg hx)
  have hstart : point (kthreadCreate s t p) t = [.start] := (kthreadCreate_point htc t).trans (if_pos rfl)
  refine ⟨hst, ho, h.tree.congr hnode rfl rfl rfl rfl, ⟨(hmem _).2 (.inr h.threads.cur),
    fun q x hx => (hmem x).2 (.inr (h.threads.onq q x hx)), nodup_cons.2 ⟨ht, h.threads.objs⟩,
    fun x hx => ?_, fun q hq x hx => ?_, fun q hq hd => ?_⟩, fun x hx => ?_, fun x hx pid q st hm => ?_, fun hd => ?_⟩
  · rcases (hmem x).1 hx with rfl | hx
    · rw [hnew, hproc, if_pos rfl]
      exact ⟨hp, rfl⟩
    · rw [hthr x (hold x hx), hproc, if_neg (hother x hx)]
      exact h.threads.owner x hx
  · rw [hproc] at hx
    split_ifs at hx with hqp
    · obtain rfl := mem_singleton.1 hx
      rw [hnew]
      exact ⟨(hmem x).2 (.inl rfl), hqp.symm⟩
    obtain ⟨h1, h2⟩ := h.threads.own q hq x hx
    rw [hthr x (hold x h1)]
    exact ⟨(hmem x).2 (.inr h1), h2⟩
  · rw [(hnode q).pState] at hd
    obtain ⟨u, hu, hex⟩ := h.threads.dead q hq hd
    have hqp : q ≠ p := by
      rintro rfl
      rw [hnone] at hu
      cases hu
    have hut : u ≠ t := hold u (h.threads.own q hq u (hu ▸ mem_singleton_self u)).1
    rw [hproc, if_neg hqp]
    exact ⟨u, hu, (hthr u hut).symm ▸ hex⟩
  · rcases (hmem x).1 hx with rfl | hx
    · rw [hstart]
      exact .outer _ trivial
    · rw [hpoint x (hold x hx)]
      exact h.shape x hx
  · rcases (hmem x).1 hx with rfl | hx
    · rw [hstart] at hm
      simp at hm
    rw [hpoint x (hold x hx)] at hm
    rw [hthr x (hold x hx), (hnode _).pChildren]
    exact h.waits x hx pid q st hm
  · rw [(hnode _).pState] at hd
    exact h.ending hd

/-- An exited child goes. -/
theorem reaped (h : ProcInv idle s) (hr : Reapable s p t) (v : ℤ) (hf : s.cpu.frames = [])
    (hst : Stable { s.reaped p t with ret := v }) (ho : Orderly { s.reaped p t with ret := v }) :
    ProcInv idle { s.reaped p t with ret := v } := by
  obtain ⟨hpo, hpi, hpp⟩ := h.tree.child _ h.curproc.1 p hr.child
  have halive := h.alive_nil hf
  have hpc : p ≠ s.curproc := fun he => halive (he ▸ hr.dead)
  have hto : ∀ x, x ∈ s.thrObjs.erase t ↔ x ≠ t ∧ x ∈ s.thrObjs := fun x => h.threads.objs.mem_erase_iff
  have hpm : ∀ x, x ∈ s.procObjs.erase p ↔ x ≠ p ∧ x ∈ s.procObjs := fun x => h.tree.objs.mem_erase_iff
  have hproc : ∀ x ∈ s.thrObjs, x ≠ t → (s.thr x).ktProc ≠ p := by
    rintro x hx hxt rfl
    exact hxt (h.thread_unique hx hr.thrObj hr.ktProc.symm)
  have hthreads : ∀ x, x ≠ p → ((s.reaped p t).proc x).pThreads = (s.proc x).pThreads := by
    intro x hx
    simp [State.reaped, hx]
  have htc : s.curthr ≠ t := by
    rintro rfl
    exact hpc (hr.ktProc.symm.trans h.stable.proc.symm)
  refine ⟨hst, ho, (h.tree.reaped hpo hpi hr.dead t).congr (fun _ => .refl _) rfl rfl rfl rfl,
    ⟨(hto _).2 ⟨htc, h.threads.cur⟩, fun q x hx => (hto x).2 ⟨?_, h.threads.onq q x hx⟩, h.threads.objs.erase t,
    fun x hx => ?_, fun q hq x hx => ?_, fun q hq hd => ?_⟩, fun x hx => h.shape x ((hto x).1 hx).2,
    fun x hx pid q st hm => ?_, fun hd => absurd hd halive⟩
  · rintro rfl
    exact h.orderly.not_exited hx hr.exited
  · obtain ⟨hxt, hx⟩ := (hto x).1 hx
    obtain ⟨h1, h2⟩ := h.threads.owner x hx
    have hne := hproc x hx hxt
    exact ⟨(hpm _).2 ⟨hne, h1⟩, (hthreads _ hne).trans h2⟩
  · obtain ⟨hqp, hq⟩ := (hpm q).1 hq
    rw [hthreads q hqp] at hx
    obtain ⟨h1, h2⟩ := h.threads.own q hq x hx
    refine ⟨(hto x).2 ⟨?_, h1⟩, h2⟩
    rintro rfl
    exact hqp (h2.symm.trans hr.ktProc)
  · obtain ⟨hqp, hq⟩ := (hpm q).1 hq
    obtain ⟨u, hu, hex⟩ := h.threads.dead q hq hd
    exact ⟨u, (hthreads q hqp).trans hu, hex⟩
  obtain ⟨hxt, hxo⟩ := (hto x).1 hx
  have hq := h.waits x hxo pid q st hm
  -- another thread that waits for `p` would belong to the same parent
  have hqp : q ≠ p := by
    rintro rfl
    have hparent := h.tree.parent_unique (h.threads.owner x hxo).1 h.curproc.1 hq hr.child
    have hxc : x = s.curthr := h.thread_unique hxo h.threads.cur (hparent.trans h.stable.proc)
    change .waitPid pid q st ∈ point s x at hm
    rw [hxc, point_cur, hf] at hm
    cases hm
  have hmem := (h.tree.nodup _ (h.threads.owner x hxo).1).mem_erase_iff.2 ⟨hqp, hq⟩
  have hne := hproc x hxo hxt
  simpa [State.reaped, hne] using hmem

end ProcInv

end Weenix.Sched
