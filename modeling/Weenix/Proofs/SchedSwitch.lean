import Weenix.Lib.Run
import Weenix.Proofs.SchedStable

/-! The switch over whole runs, with threads cancelled and killed. As long as every switch
finds a thread to run that is not cancelled, `sched_switch` stores the context of its
caller in the caller and goes on with the thread that has waited longest. -/

namespace Weenix.Sched

open Runs Exec State

variable {σ : Scope} {s s' : State} {q : Queue} {t x m p : ℕ} {c : Code} {l : List Code} {status : ℤ}

/-! ### Killing -/

/-- A thread changes in its state and flags only. -/
theorem Framed.setThr (h : Framed s) (t : ℕ) {f : Kthread → Kthread}
    (hf : ∀ k, (f k).ktCtx = k.ktCtx ∧ (f k).ktProc = k.ktProc ∧ (f k).ktWchan = k.ktWchan ∧
      ((f k).ktState = .sleepCancellable → k.ktState = .sleepCancellable)) : Framed (s.setThr t f) := by
  obtain ⟨hctx, hproc, hw, hawake⟩ := hf (s.thr t)
  have hwchan := setThr_field (s := s) (·.ktWchan) hw
  refine h.threads ⟨fun q x hx => ?_, h.queued.nodup, h.queued.size, fun x hx hst => ?_⟩ rfl rfl rfl
    (setThr_field (·.ktCtx) hctx) (setThr_field (·.ktProc) hproc)
  · rw [hwchan]
    exact h.queued.mem q x hx
  · rw [hwchan] at hx
    rw [setThr_thr] at hst
    split_ifs at hst with hxt
    · exact h.queued.awake x hx (hxt ▸ hawake hst)
    · exact h.queued.awake x hx hst

def State.remove (s : State) (t : ℕ) : State := (qlinkRemove s t).setThr t fun k => { k with ktWchan := none }

@[simp] theorem State.remove_list (s : State) (t : ℕ) (q : Queue) :
    ((s.remove t).queue q).tqList = (s.queue q).tqList.erase t := rfl

@[simp] theorem State.remove_thr (s : State) (t x : ℕ) : (s.remove t).thr x =
    if x = t then { s.thr t with ktWchan := none, ktQlink := false } else s.thr x := by
  by_cases h : x = t
  · simp [State.remove, qlinkRemove, State.setThr, h]
  · simp [State.remove, qlinkRemove, State.setThr, h]

theorem Framed.remove (h : Framed s) (t : ℕ) : Framed (s.remove t) := by
  refine h.threads ⟨fun q x hx => ?_, fun q => ?_, ?_, fun x hx => ?_⟩ rfl rfl rfl (fun x => ?_) fun x => ?_
  · rw [remove_list, (h.queued.nodup q).mem_erase_iff] at hx
    rw [remove_thr, if_neg hx.1]
    exact h.queued.mem q x hx.2
  · exact (h.queued.nodup q).erase t
  · have hlen := List.length_erase_le (a := t) (l := (s.queue .runq).tqList)
    have hsize := h.queued.size
    change (((s.queue .runq).tqList.erase t).length : ℤ) ≤ (s.queue .runq).tqSize
    omega
  · rw [remove_thr] at hx ⊢
    split_ifs at hx ⊢
    exact h.queued.awake x hx
  all_goals
    rw [remove_thr]
    split_ifs with hx
    · rw [hx]
    · rfl

def State.detached (s : State) (t : ℕ) (r : Queue) : State :=
  ((s.setThr t fun k => { k with ktCancelled := true, ktState := .run }).remove t).setQueue r
    fun k => { k with tqSize := k.tqSize - 1 }

theorem State.detached_list (s : State) (t : ℕ) (r q : Queue) :
    ((s.detached t r).queue q).tqList = (s.queue q).tqList.erase t := by
  rw [State.detached, setQueue_list]
  split_ifs with hq
  · rw [hq]
    rfl
  · rfl

theorem schedCancel_ok (h : schedCancel s t = .ok s') : s' = s ∨
    ∃ r, (s.thr t).ktState = .sleepCancellable ∧ (s.thr t).ktWchan = some r ∧ s' = (s.detached t r).link .runq t := by
  unfold schedCancel at h
  split_ifs at h with hst
  · obtain ⟨s1, h1, h2⟩ := ok_of_bind h
    obtain ⟨-, rfl⟩ := ktqueueEnqueue_ok h2
    have hw : ((s.setThr t fun k => { k with ktCancelled := true, ktState := .run }).thr t).ktWchan =
        (s.thr t).ktWchan := by simp [State.setThr]
    unfold ktqueueRemove at h1
    split_ifs at h1
    rw [hw] at h1
    cases hr : (s.thr t).ktWchan with
    | none =>
      rw [hr] at h1
      cases h1
    | some r =>
      rw [hr] at h1
      cases h1
      exact .inr ⟨r, hst, rfl, rfl⟩
  · exact .inl (Except.ok.inj h).symm

theorem kthreadCancel_ok (ht : t ≠ s.curthr) (h : kthreadCancel s t status = .ok s') : s' = s ∨
    s' = s.setThr t (fun k => { k with ktCancelled := true }) ∨
    ∃ r, (s.thr t).ktState = .sleepCancellable ∧ (s.thr t).ktWchan = some r ∧ s' = (s.detached t r).link .runq t := by
  unfold kthreadCancel at h
  rw [if_neg ht] at h
  split at h
  · exact (schedCancel_ok h).imp_right .inr
  · exact .inr (.inl (Except.ok.inj h).symm)
  · exact .inr (.inl (Except.ok.inj h).symm)
  · exact .inl (Except.ok.inj h).symm

theorem Framed.detached {r : Queue} (h : Framed s) (hst : (s.thr t).ktState = .sleepCancellable)
    (hr : (s.thr t).ktWchan = some r) : Framed (s.detached t r) := by
  have hrun : r ≠ .runq := by
    rintro rfl
    exact h.queued.awake t hr hst
  have hmark : Framed (s.setThr t fun k => { k with ktCancelled := true, ktState := .run }) :=
    h.setThr t fun _ => ⟨rfl, rfl, rfl, fun he => by cases he⟩
  have hrem := hmark.remove t
  have hlist := State.detached_list s t r
  refine hrem.threads ⟨fun q x hx => ?_, fun q => ?_, ?_, hrem.queued.awake⟩ rfl rfl rfl (fun _ => rfl)
    fun _ => rfl
  · rw [hlist] at hx
    exact hrem.queued.mem q x hx
  · rw [hlist]
    exact hrem.queued.nodup q
  · rw [hlist, State.detached, setQueue_size, if_neg hrun.symm]
    exact hrem.queued.size

theorem State.detached_thr (s : State) (t x : ℕ) (r : Queue) : (s.detached t r).thr x = if x = t then
    { s.thr t with ktCancelled := true, ktState := .run, ktWchan := none, ktQlink := false }
      else s.thr x := by
  refine (remove_thr _ t x).trans ?_
  rw [setThr_thr, setThr_thr, if_pos rfl]
  split_ifs <;> rfl

theorem Framed.cancelled {r : Queue} (h : Framed s) (hst : (s.thr t).ktState = .sleepCancellable)
    (hr : (s.thr t).ktWchan = some r) : Framed ((s.detached t r).link .runq t) := by
  have hlink : Does { anyCall with self := True } (s.detached t r) ((s.detached t r).link .runq t) := by
    refine .link _ .runq t trivial ?_ ?_ fun _ => trivial
    · rw [detached_thr, if_pos rfl]
    rw [detached_thr, if_pos rfl]
    simp [Fit]
  exact hlink.framed (fun _ => id) (h.detached hst hr)

/-- A running thread that is on no queue. -/
structure Calm (s : State) : Prop extends Framed s where
  wchan : (s.thr s.curthr).ktWchan = none

theorem Calm.stable (h : Calm s) : Stable s := ⟨h.toFramed, .inl h.wchan⟩

theorem Stable.calm (h : Stable s) (hf : s.cpu.frames = []) : Calm s :=
  ⟨h.toFramed, h.wchan (not_switching_nil hf)⟩

theorem Calm.effects (h : Calm s) (heff : Effects anyCall s s') : Calm s' :=
  ⟨heff.framed (fun _ => id) h.toFramed, heff.wchan id h.wchan⟩

theorem Calm.setThr (h : Calm s) (t : ℕ) {f : Kthread → Kthread}
    (hf : ∀ k, (f k).ktCtx = k.ktCtx ∧ (f k).ktProc = k.ktProc ∧ (f k).ktWchan = k.ktWchan ∧
      ((f k).ktState = .sleepCancellable → k.ktState = .sleepCancellable)) : Calm (s.setThr t f) :=
  ⟨h.toFramed.setThr t hf, (setThr_field (·.ktWchan) (hf _).2.2.1 _).trans h.wchan⟩

/-- `kthread_cancel` of another thread. -/
theorem Calm.cancelOther (h : Calm s) (ht : t ≠ s.curthr) (hs : kthreadCancel s t status = .ok s') :
    Calm s' := by
  rcases kthreadCancel_ok ht hs with rfl | rfl | ⟨r, hst, hr, rfl⟩
  · exact h
  · exact h.setThr t fun _ => ⟨rfl, rfl, rfl, id⟩
  refine ⟨h.toFramed.cancelled hst hr, ?_⟩
  change (((s.detached t r).link .runq t).thr s.curthr).ktWchan = none
  rw [link_thr, if_neg ht.symm, detached_thr, if_neg ht.symm]
  exact h.wchan

theorem Calm.cancel (h : Calm s) (hs : kthreadCancel s t status = .ok s') : Calm s' := by
  by_cases ht : t = s.curthr
  · subst ht
    exact h.effects (doExit_effects anyCall_ordinary hs (h.toFramed.unqueued h.wchan _))
  · exact h.cancelOther ht hs

theorem Calm.killThreads (status : ℤ) (l : List ℕ) (h : Calm s) (hs : killThreads status l s = .ok s') :
    Calm s' := by
  induction l generalizing s s' with
  | nil =>
    cases hs
    exact h
  | cons t l ih =>
    unfold Sched.killThreads at hs
    split_ifs at hs
    · exact ih h hs
    · exact h.cancel hs
    obtain ⟨s1, h1, h2⟩ := ok_of_bind hs
    exact ih (h.cancel h1) h2

theorem Calm.kill (h : Calm s) (hs : procKill s p status = .ok s') : Calm s' := by
  unfold procKill at hs
  split_ifs at hs
  · exact h.cancel hs
  · exact h.killThreads status _ hs

/-- The loop of `proc_kill_all` marks threads as exited and processes as dead. -/
theorem killProcs_rel {M : State → State → Prop} (hrefl : ∀ s, M s s) (htrans : ∀ {s s₁ s'}, M s s₁ → M s₁ s' → M s s')
    (hexit : ∀ s t, M s (s.setState t .exited)) (hdead : ∀ s p, M s (s.setProc p fun q => { q with pState := .dead }))
    (l : List ℕ) {init init' : Option ℕ} (h : killProcs l init s = .ok (init', s')) : M s s' := by
  have hall : ∀ (ts : List ℕ) (u : State), M u (ts.foldl (fun s t => s.setState t .exited) u) := by
    intro ts
    induction ts with
    | nil => exact hrefl
    | cons t ts ih => exact fun u => htrans (hexit u t) (ih _)
  induction l generalizing init init' s s' with
  | nil =>
    cases h
    exact hrefl s
  | cons p l ih =>
    unfold killProcs at h
    dsimp only at h
    split_ifs at h
    · split at h
      · cases h
      split_ifs at h
      · exact ih h
      · exact htrans (htrans (hall _ s) (hdead _ p)) (ih h)
    · exact ih h
    · exact ih h

/-- How `proc_kill_all` goes: behind its loop it turns to the init thread, wherever that is. -/
theorem procKillAll_ok (h : procKillAll s = .ok s') :
    ∃ init s1, killProcs s.procList none s = .ok (some init, s1) ∧
      (init ≠ s1.curthr ∧ s' = contextSwitch ((s1.turnTo init).remove init) s1.curthr init ∨
        init = s1.curthr ∧ s' = contextSwitch (s1.turnTo init) s1.curthr init) := by
  obtain ⟨⟨init, s1⟩, h1, h2⟩ := ok_of_bind h
  cases init with
  | none => cases h2
  | some init =>
    refine ⟨init, s1, h1, ?_⟩
    dsimp only at h2
    split_ifs at h2 with hne
    · exact .inl ⟨Ne.symm hne, (Except.ok.inj h2).symm⟩
    · exact .inr ⟨(not_not.1 hne).symm, (Except.ok.inj h2).symm⟩

theorem Calm.killAll (h : Calm s) (hs : procKillAll s = .ok s') : Stable s' := by
  obtain ⟨init, s1, h1, h2⟩ := procKillAll_ok hs
  have hcalm : Calm s1 := killProcs_rel (M := fun s s' => Calm s → Calm s') (fun _ => id) (fun h1 h2 h => h2 (h1 h))
    (fun _ t h => h.setThr t fun _ => ⟨rfl, rfl, rfl, fun he => by cases he⟩)
    (fun _ p h => h.effects (.setProc _ p _)) _ h1 h
  rcases h2 with ⟨-, rfl⟩ | ⟨rfl, rfl⟩
  · have hrem := hcalm.toFramed.remove init
    have hw : ((s1.remove init).thr init).ktWchan = none := by rw [remove_thr, if_pos rfl]
    have hproc : ((s1.remove init).thr init).ktProc = (s1.thr init).ktProc := by
      rw [remove_thr, if_pos rfl]
    have hst := hrem.contextSwitch hw s1.ipl
    rw [hproc] at hst
    exact hst
  · exact hcalm.toFramed.contextSwitch hcalm.wchan s1.ipl

/-! ### Runs -/

theorem Stable.call {c : Call} (h : Stable s) (hen : Enabled s (.call c)) (hs : call s c = .ok s') :
    Stable s' := by
  have hn := not_switching_nil hen.1
  have hcalm := h.calm hen.1
  cases c with
  | lock m => exact h.lock hn (.inl rfl) hs
  | lockCancellable m => exact h.lock hn (.inr (.inl rfl)) hs
  | unlock m => exact h.lock hn (.inr (.inr rfl)) hs
  | cancel t status => exact (hcalm.cancel hs).stable
  | kill p status => exact (hcalm.kill hs).stable
  | killAll => exact hcalm.killAll hs
  | _ => exact h.neutral_call anyCall_ordinary (fun _ => id) id hen trivial (fun _ _ _ => trivial) hs

/-- A step of the machine that, if it runs `sched_switch`, finds a thread to switch to. -/
def GoodStep (s : State) (op : Op) (s' : State) : Prop :=
  Enabled s op ∧ step s op = .ok s' ∧ (op = .cont → ∀ l, s.cpu.frames = .schedSwitch :: l → Takes s)

theorem Stable.step {op : Op} (h : Stable s) (hs : GoodStep s op s') : Stable s' := by
  obtain ⟨hen, hs, ht⟩ := hs
  cases op with
  | call c => exact h.call hen hs
  | intr ws => exact h.intr hen hs
  | cont =>
    obtain ⟨c, l, b, hf, hi, h1⟩ := step_cont hen hs
    refine h.cont anyCall_ordinary (fun _ => id) id hf hi (fun hc => ?_) h1
    exact ht rfl l (hc ▸ hf)

theorem stable_run {ints : ℕ → ℤ} {ops : List Op} (h : Run GoodStep (bootState p t ints) ops s) : Stable s :=
  h.invariant (stable_boot p t ints) fun _ _ _ hs hstep => hs.step hstep

/-- What `sched_switch` owes its caller. With an empty run queue it takes nothing from it
and halts with the caller's frames below. Else the thread that has waited longest, of those
that have not exited, becomes the current thread of the current process and is the one whose
stack is in use; and if a context has been resumed, it is the one of that thread, and the
place where the caller goes on is in the caller's own context. -/
def SwitchOk (s : State) : Prop :=
  match exec s.pop .schedSwitch with
  | .error _ => False
  | .ok (resumed, s') =>
    if (s.queue .runq).tqList = [] then
      resumed = false ∧ s'.queue = s.queue ∧ s'.thr = s.thr ∧ s'.curthr = s.curthr ∧
        s'.curproc = s.curproc ∧ s'.cpu = ⟨s.curthr, .intrWait s.ipl :: s.cpu.frames.tail⟩
    else
      nextThread s = some s'.curthr ∧ s'.curproc = (s.thr s'.curthr).ktProc ∧
        s'.cpu.stack = s'.curthr ∧
        (resumed = true → (s'.thr s.curthr).ktCtx = ⟨s.curthr, s.cpu.frames.tail⟩ ∧
          s'.cpu = (s'.thr s'.curthr).ktCtx)

theorem takeRunq_cpu (k : ℕ) (s : State) : (s.takeRunq k).cpu = s.cpu :=
  (takeRunq_handler k s).cpu fun _ => id

/-- A switch to a thread that is not cancelled, from a caller on its own stack. -/
theorem switched_ctx (h : Framed s) (t k : ℕ) :
    ((switched s t k).thr s.curthr).ktCtx = ⟨s.curthr, s.cpu.frames⟩ ∧ (switched s t k).cpu.stack = t := by
  have hcpu : (s.takeRunq k).cpu = ⟨s.curthr, s.cpu.frames⟩ := by
    rw [takeRunq_cpu, ← h.stack]
  refine ⟨?_, ?_⟩
  · rw [switched, contextSwitch_thr, if_pos rfl]
    exact hcpu
  change ((switched s t k).thr t).ktCtx.stack = t
  rw [switched, contextSwitch_thr]
  split_ifs with ht
  · rw [hcpu]
    exact ht.symm
  · exact (h.takeRunq k).ctx t

theorem Stable.switchOk_iff (h : Stable s) : SwitchOk s ↔ Takes s := by
  have hpop := h.toFramed.pop
  unfold SwitchOk
  by_cases hne : (s.queue .runq).tqList = []
  · rw [exec, schedSwitch_empty (s := s.pop) hne]
    dsimp only
    rw [if_pos hne]
    refine iff_of_true ⟨rfl, rfl, rfl, rfl, rfl, ?_⟩ fun hn => absurd hne hn
    change (⟨s.cpu.stack, _⟩ : Context) = _
    rw [h.stack]
    rfl
  cases hnext : nextThread s with
  | none =>
    rw [exec, schedSwitch_none (s := s.pop) hpop.queued hne hnext]
    refine iff_of_false id fun ht => ?_
    obtain ⟨t, ht, -⟩ := ht hne
    rw [hnext] at ht
    cases ht
  | some t =>
    cases hcan : (s.thr t).ktCancelled with
    | false =>
      obtain ⟨k, -, hsw⟩ := schedSwitch_taken (s := s.pop) hpop.queued hne hnext hcan
      obtain ⟨hctx, hstack⟩ := switched_ctx hpop t k
      rw [exec, hsw]
      dsimp only
      rw [if_neg hne]
      exact iff_of_true ⟨rfl, rfl, hstack, fun _ => ⟨hctx, rfl⟩⟩ fun _ => ⟨t, hnext, .inl hcan⟩
    | true =>
      obtain ⟨k, -, hsw⟩ := schedSwitch_cancelled (s := s.pop) hpop.queued hne hnext hcan
      rw [exec, hsw]
      dsimp only
      rw [if_neg hne]
      -- `do_exit` runs on the caller's stack, so all is well only if the caller is ending itself
      have hstack : (s.pop.takeRunq k).cpu.stack = s.curthr := by
        rw [takeRunq_cpu]
        exact h.stack
      constructor
      · rintro ⟨-, -, hst, -⟩ -
        exact ⟨t, hnext, .inr (hst.symm.trans hstack)⟩
      intro ht
      obtain ⟨t', ht', hor⟩ := ht hne
      obtain rfl : t = t' := Option.some.inj (hnext.symm.trans ht')
      have hcur := hor.resolve_left (by simp [hcan])
      exact ⟨rfl, rfl, hstack.trans hcur.symm, fun hr => by cases hr⟩

/-- In a run in which every switch so far has found a thread to run, not cancelled unless it
is the caller, the next call of `sched_switch` does what it owes exactly if that is so again.
A halted caller comes back to `sched_switch` with its frames as they were. -/
theorem switchOk_iff_takes {ints : ℕ → ℤ} {ops : List Op} (h : Run GoodStep (bootState p t ints) ops s) :
    (∀ l, s.cpu.frames = .schedSwitch :: l → (SwitchOk s ↔ Takes s)) ∧
    ∀ ipl l ws s', s.cpu.frames = .intrWait ipl :: l → step s (.intr ws) = .ok s' →
      s'.curthr = s.curthr ∧ s'.curproc = s.curproc ∧ s'.cpu = ⟨s.curthr, .schedSwitch :: l⟩ := by
  have hst := stable_run h
  refine ⟨fun _ _ => hst.switchOk_iff, fun ipl l ws s' hf hs => ?_⟩
  rcases step_intr (.inl ⟨ipl, l, hf⟩) hs with ⟨s₁, ipl', l', hf', -, heff, rfl⟩ | ⟨hf', -⟩
  · obtain ⟨-, rfl⟩ := List.cons.inj (hf.symm.trans hf')
    have hcpu := heff.cpu fun _ => id
    refine ⟨heff.curthr, heff.curproc, ?_⟩
    change (⟨s₁.cpu.stack, .schedSwitch :: s₁.cpu.frames.tail⟩ : Context) = _
    rw [hcpu, hf, hst.stack]
    rfl
  · rw [hf] at hf'
    cases hf'

def State.next (s : State) (op : Op) : State :=
  match step s op with
  | .ok s' => s'
  | .error _ => s

theorem step_next (s : State) (op : Op) (hok : (step s op).isOk = true) : step s op = .ok (s.next op) := by
  cases hs : step s op with
  | error f =>
    rw [hs] at hok
    cases hok
  | ok s' => rw [State.next, hs]

theorem State.next_good {c : Call} (hen : Enabled s (.call c)) (hok : (step s (.call c)).isOk) :
    GoodStep s (.call c) (s.next (.call c)) :=
  ⟨hen, step_next s _ hok, fun h => by cases h⟩

/-- A thread yields to another. -/
theorem switchOk_iff_takes_yield : ∃ ops s, Run GoodStep (bootState 100 0 fun _ => 0) ops s ∧
    s.cpu.frames = [.schedSwitch] ∧ nextThread s = some 1 ∧ SwitchOk s := by
  have h0 : Run GoodStep (bootState 100 0 fun _ => 0) [] _ := Run.nil
  have h1 := h0.snoc (next_good (c := .thread 1 100)
    ⟨rfl, by decide, by decide, fun _ h => (by cases h), by decide⟩ rfl)
  have h2 := h1.snoc (next_good (c := .makeRunnable 1) ⟨rfl, by decide, by decide⟩ rfl)
  have h3 := h2.snoc (next_good (c := .yield) ⟨rfl, trivial⟩ rfl)
  exact ⟨_, _, h3, rfl, rfl, ((switchOk_iff_takes h3).1 [] rfl).2 fun _ => ⟨1, rfl, .inl rfl⟩⟩

/-- Thread 3 is cancelled while it waits on the run queue in front of thread 1, and the idle
thread 0 goes to sleep. `sched_switch` ends thread 3 on the stack of thread 0: thread 1 runs
next, the place where thread 0 goes on is in the context of thread 3, and that of thread 0 is
not stored at all. -/
theorem cancelled_thread_breaks_switch : ∃ ops s s', Run GoodStep (bootState 100 0 fun _ => 0) ops s ∧
    s.cpu = ⟨0, [.schedSwitch]⟩ ∧ nextThread s = some 3 ∧ ¬ SwitchOk s ∧
    [Op.cont, .cont, .cont].foldlM step s = .ok s' ∧ s'.curthr = 1 ∧ s'.cpu = ⟨1, [.start]⟩ ∧
    (s'.thr 0).ktCtx = (s.thr 0).ktCtx ∧ (s'.thr 3).ktCtx = ⟨0, [.exitReturn, .contextSwitch 0 0]⟩ := by
  have h0 : Run GoodStep (bootState 100 0 fun _ => 0) [] _ := Run.nil
  have h1 := h0.snoc (next_good (c := .setCwd 7) ⟨rfl, trivial⟩ rfl)
  have h2 := h1.snoc (next_good (c := .create 101) ⟨rfl, by decide⟩ rfl)
  have h3 := h2.snoc (next_good (c := .create 102) ⟨rfl, by decide⟩ rfl)
  have h4 := h3.snoc (next_good (c := .create 103) ⟨rfl, by decide⟩ rfl)
  have h5 := h4.snoc (next_good (c := .thread 1 101)
    ⟨rfl, by decide, by decide, (stable_run h4).queued.not_mem rfl, by decide⟩ rfl)
  have h6 := h5.snoc (next_good (c := .thread 3 103)
    ⟨rfl, by decide, by decide, (stable_run h5).queued.not_mem rfl, by decide⟩ rfl)
  have h7 := h6.snoc (next_good (c := .makeRunnable 3) ⟨rfl, by decide, by decide⟩ rfl)
  have h8 := h7.snoc (next_good (c := .makeRunnable 1) ⟨rfl, by decide, by decide⟩ rfl)
  have h9 := h8.snoc (next_good (c := .cancel 3 0) ⟨rfl, by decide⟩ rfl)
  have h10 := h9.snoc (next_good (c := .sleep 0) ⟨rfl, trivial⟩ rfl)
  refine ⟨_, _, _, h10, rfl, rfl, fun hok => ?_, rfl, rfl, rfl, rfl, rfl⟩
  obtain ⟨t, ht, hor⟩ := (stable_run h10).switchOk_iff.1 hok (by decide)
  obtain rfl : 3 = t := Option.some.inj ht
  rcases hor with h | h
  · cases h
  · cases h

end Weenix.Sched
