import Weenix.Proofs.SchedChange

/-! What a call can do to threads and queues, said once. Every function of the kernel
other than the switch itself and the killing of threads is a sequence of the changes
`Does`; what each of these preserves is preserved by all of them. -/

namespace Weenix.Sched

open Relation Exec Function

def State.newThread (s : State) (t p : ℕ) : State :=
  { s with
    thrObjs := t :: s.thrObjs
    thr := update s.thr t
      { ktCtx := ⟨t, [.start]⟩, ktProc := p, ktCancelled := false, ktWchan := none, ktState := .run,
        ktQlink := true } }

def Fit (q : Queue) (st : KtState) : Prop :=
  if q = .runq then st = .run else st = .sleep ∨ st = .sleepCancellable

/-- The parts of the state that concern neither threads nor queues may change freely. -/
structure SameSched (s s' : State) : Prop where
  thr : s'.thr = s.thr
  queue : s'.queue = s.queue
  curthr : s'.curthr = s.curthr
  curproc : s'.curproc = s.curproc
  cpu : s'.cpu = s.cpu
  kmHolder : s'.kmHolder = s.kmHolder
  thrObjs : s'.thrObjs = s.thrObjs

/-- Which changes a call may make: whether it may enqueue the running thread, on which
queues it works, which calls it opens and which threads it creates. -/
structure Scope where
  self : Prop
  queue : Queue → Prop
  code : Code → Prop
  create : ℕ → Prop

section
variable (σ : Scope)

/-- One change to threads and queues. -/
inductive Does : State → State → Prop
  | other {s s' : State} : SameSched s s' → Does s s'
  | push (s : State) (c : Code) : σ.code c → Does s (s.push c)
  | link (s : State) (q : Queue) (t : ℕ) : σ.queue q → (s.thr t).ktWchan = none →
      Fit q (s.thr t).ktState → (t = s.curthr → σ.self) → Does s (s.link q t)
  | unlink (s : State) (q : Queue) (t : ℕ) : σ.queue q → (s.queue q).tqList.getLast? = some t →
      Does s (s.unlink q t)
  | state (s : State) (t : ℕ) (st : KtState) : (s.thr t).ktWchan = none → Does s (s.setState t st)
  | reset (s : State) (q : Queue) : σ.queue q → Does s (schedQueueInit s q)
  | newThread (s : State) (t p : ℕ) : σ.create t → t ∉ s.thrObjs → t ≠ s.curthr →
      (∀ q, t ∉ (s.queue q).tqList) → Does s (s.newThread t p)
  | delThread (s : State) (t : ℕ) : Does s { s with thrObjs := s.thrObjs.erase t }

def Effects : State → State → Prop := ReflTransGen (Does σ)

/-- How a call ends: as it is, or with the running thread going to sleep. -/
inductive Ends : State → State → Prop
  | done (s : State) : Ends s s
  | sleep (s : State) (q : Queue) (st : KtState) : σ.queue q → σ.code .schedSwitch →
      (s.thr s.curthr).ktWchan = none → Fit q st → Ends s (s.sleep q st)

def Acts (s s' : State) : Prop := ∃ s₁, Effects σ s s₁ ∧ Ends σ s₁ s'

/-- The running thread is on no queue, unless it may be. -/
def Unqueued (s : State) : Prop := σ.self ∨ ∀ q, s.curthr ∉ (s.queue q).tqList

end

variable {σ : Scope} {s s' s₁ s₂ : State} {q : Queue} {t p : ℕ}

theorem Effects.refl (s : State) : Effects σ s s := ReflTransGen.refl

theorem Effects.trans (h1 : Effects σ s s₁) (h2 : Effects σ s₁ s') : Effects σ s s' :=
  ReflTransGen.trans h1 h2

theorem Effects.of (h : Does σ s s') : Effects σ s s' := ReflTransGen.single h

theorem Effects.tail (h1 : Effects σ s s₁) (h2 : Does σ s₁ s') : Effects σ s s' :=
  ReflTransGen.tail h1 h2

theorem Effects.other (h : SameSched s s') : Effects σ s s' := .of (.other h)

/-- The calls on processes and plain data change nothing of the threads. -/
theorem Effects.rest (h : s' = { s with
    proc := s'.proc, procList := s'.procList, nextPid := s'.nextPid, procInitproc := s'.procInitproc,
    procObjs := s'.procObjs, ipl := s'.ipl, schedFirst := s'.schedFirst, ret := s'.ret, ints := s'.ints }) : Effects σ s s' := by
  refine .other ?_
  rw [h]
  exact ⟨rfl, rfl, rfl, rfl, rfl, rfl, rfl⟩

theorem Effects.acts (h : Effects σ s s') : Acts σ s s' := ⟨s', h, .done s'⟩

/-- What each change preserves, a sequence of them preserves. -/
theorem Effects.invariant {I : State → Prop} (hstep : ∀ s s', I s → Does σ s s' → I s')
    (h : Effects σ s s') (hs : I s) : I s' := by
  induction h with
  | refl => exact hs
  | tail _ hd ih => exact hstep _ _ ih hd

theorem Does.weaken (h : Does σ s s') : Does { σ with self := True } s s' := by
  cases h with
  | other h => exact .other h
  | push c hc => exact .push s c hc
  | link q t hq hw hf _ => exact .link s q t hq hw hf fun _ => trivial
  | unlink q t hq hl => exact .unlink s q t hq hl
  | state t st hw => exact .state s t st hw
  | reset q hq => exact .reset s q hq
  | newThread t p hcr hobj hcur hq => exact .newThread s t p hcr hobj hcur hq
  | delThread t => exact .delThread s t

/-- With the running thread enqueued, a call is a sequence of changes too. -/
theorem Acts.effects (h : Acts σ s s') : Effects { σ with self := True } s s' := by
  obtain ⟨s₁, heff, hends⟩ := h
  have hweak : Effects { σ with self := True } s s₁ :=
    heff.invariant (I := Effects _ s) (fun _ _ hs hd => hs.tail hd.weaken) (.refl s)
  cases hends with
  | done => exact hweak
  | sleep q st hq hc hw hst =>
    refine ((hweak.tail (.state s₁ s₁.curthr st hw)).tail (.link _ q s₁.curthr hq ?_ ?_
      fun _ => trivial)).tail (.push _ _ hc)
    · rwa [State.setState_wchan]
    · rwa [State.setState_self]

theorem SameSched.setProc (s : State) (p : ℕ) (f : Proc → Proc) : SameSched s (s.setProc p f) :=
  ⟨rfl, rfl, rfl, rfl, rfl, rfl, rfl⟩

theorem Effects.setProc (s : State) (p : ℕ) (f : Proc → Proc) : Effects σ s (s.setProc p f) :=
  .other (.setProc s p f)

theorem Does.curthr (h : Does σ s s') : s'.curthr = s.curthr := by
  cases h with
  | other h => exact h.curthr
  | _ => rfl

theorem Does.unqueued (h : Does σ s s') (hn : Unqueued σ s) : Unqueued σ s' := by
  rcases hn with hself | hn
  · exact .inl hself
  cases h with
  | other h =>
    refine .inr fun q => ?_
    rw [h.curthr, h.queue]
    exact hn q
  | push c hc | state t st hw | newThread t p _ hobj hcur hq | delThread t => exact .inr hn
  | link q t hq hw hf hself =>
    by_cases ht : t = s.curthr
    · exact .inl (hself ht)
    refine .inr fun r hr => ?_
    by_cases hrq : r = q
    · subst hrq
      simp only [State.link, State.setThr, State.setQueue, update_self, List.mem_cons] at hr
      exact hr.elim (fun he => ht he.symm) (hn r)
    · simp only [State.link, State.setThr, State.setQueue, update_of_ne hrq] at hr
      exact hn r hr
  | unlink q t hq hl =>
    refine .inr fun r hr => hn r ?_
    by_cases hrq : r = q
    · subst hrq
      simp only [State.unlink, State.setThr, State.setQueue, update_self] at hr
      exact List.mem_of_mem_dropLast hr
    · simpa only [State.unlink, State.setThr, State.setQueue, update_of_ne hrq] using hr
  | reset q hq =>
    refine .inr fun r hr => hn r ?_
    by_cases hrq : r = q
    · subst hrq
      simp [schedQueueInit, State.setQueue] at hr
    · simpa only [schedQueueInit, State.setQueue, update_of_ne hrq] using hr

theorem Effects.unqueued (h : Effects σ s s') (hn : Unqueued σ s) : Unqueued σ s' :=
  h.invariant (fun _ _ hn hd => hd.unqueued hn) hn

def handler (self : Prop) : Scope := ⟨self, fun q => ∀ m, q ≠ .mutex m, fun _ => False, fun _ => False⟩

theorem Does.cpu (hσ : ∀ c, ¬ σ.code c) (h : Does σ s s') : s'.cpu = s.cpu := by
  cases h with
  | other h => exact h.cpu
  | push c hc => exact absurd hc (hσ c)
  | _ => rfl

theorem Effects.cpu (hσ : ∀ c, ¬ σ.code c) (h : Effects σ s s') : s'.cpu = s.cpu :=
  h.invariant (I := fun x => x.cpu = s.cpu) (fun _ _ hx hd => (hd.cpu hσ).trans hx) rfl

theorem Effects.curthr (h : Effects σ s s') : s'.curthr = s.curthr :=
  h.invariant (I := fun x => x.curthr = s.curthr) (fun _ _ hx hd => hd.curthr.trans hx) rfl

theorem Does.curproc (h : Does σ s s') : s'.curproc = s.curproc := by
  cases h with
  | other h => exact h.curproc
  | _ => rfl

theorem Effects.curproc (h : Effects σ s s') : s'.curproc = s.curproc :=
  h.invariant (I := fun x => x.curproc = s.curproc) (fun _ _ hx hd => hd.curproc.trans hx) rfl

/-! ### Queues -/

/-- A thread changes its state and is enqueued. -/
theorem Effects.enqueue {st : KtState} (h : Effects σ s s₁) (hw : (s₁.thr t).ktWchan = none) (hq : σ.queue q)
    (hst : Fit q st) (hself : t = s₁.curthr → σ.self) : Effects σ s ((s₁.setState t st).link q t) := by
  refine (h.tail (.state s₁ t st hw)).tail (.link _ q t hq ?_ ?_ hself)
  · rwa [State.setState_wchan]
  · rwa [State.setState_self]

theorem fit_sleep (hq : q ≠ .runq) : Fit q .sleep ∧ Fit q .sleepCancellable := by
  simp [Fit, hq]

theorem schedSleepOn_ends (h : schedSleepOn s q = .ok s') (hq : σ.queue q) (hr : q ≠ .runq)
    (hp : σ.code .schedSwitch) : Ends σ s s' := by
  obtain ⟨hw, rfl⟩ := schedSleepOn_ok h
  exact .sleep s q .sleep hq hp hw (fit_sleep hr).1

/-- The running thread is not the one that has waited longest. -/
theorem Unqueued.self (hn : Unqueued σ s) (hl : (s.queue q).tqList.getLast? = some t)
    (ht : t = s.curthr) : σ.self :=
  hn.elim id fun hn => absurd (ht ▸ List.mem_of_getLast? hl) (hn q)

theorem wakes_effects (hrun : σ.queue .runq) : Wakes σ.queue fun s s' => Unqueued σ s → Effects σ s s' where
  refl s _ := .refl s
  trans h1 h2 hn := (h1 hn).trans (h2 ((h1 hn).unqueued hn))
  wake s q t hq hl hn := by
    refine (Effects.of (.unlink s q t hq hl)).enqueue ?_ hrun (by simp [Fit]) (hn.self hl)
    simp [State.unlink, State.setThr]
  reset s q hq _ _ := .of (.reset s q hq)

/-- What `sched_make_runnable` does to the run queue first. -/
theorem schedMakeRunnable_effects (h : schedMakeRunnable s t = .ok s') (hrun : σ.queue .runq) :
    ∃ s₁, Effects σ s s₁ ∧ (s₁.thr t).ktWchan = none ∧ s' = (s₁.setState t .run).link .runq t := by
  obtain ⟨s₁, rfl | ⟨-, -, rfl⟩, hw, rfl⟩ := schedMakeRunnable_ok h
  · exact ⟨s₁, .refl s₁, hw, rfl⟩
  exact ⟨{ schedQueueInit s .runq with schedFirst := false }, (Effects.of (.reset s .runq hrun)).trans
    (.rest rfl), hw, rfl⟩

/-! ### Threads and processes -/

theorem kthreadCreate_effects (hcr : σ.create t) (hobj : t ∉ s.thrObjs) (hcur : t ≠ s.curthr)
    (hq : ∀ q, t ∉ (s.queue q).tqList) : Effects σ s (kthreadCreate s t p) :=
  (Effects.of (.newThread s t p hcr hobj hcur hq)).trans (Effects.setProc _ p _)

theorem procCreate_same (h : procCreate s p = .ok s') : SameSched (schedQueueInit s (.wait p)) s' := by
  unfold procCreate at h
  generalize procGetid s = r at h
  dsimp only at h
  split_ifs at h
  all_goals
    cases h
    exact ⟨rfl, rfl, rfl, rfl, rfl, rfl, rfl⟩

theorem procCreate_effects (h : procCreate s p = .ok s') (hq : σ.queue (.wait p)) : Effects σ s s' :=
  (Effects.of (.reset s (.wait p) hq)).trans (.other (procCreate_same h))

theorem Relink.effects {A : ℕ → Prop} (h : Relink A s s') : Effects σ s s' := by
  cases h with
  | unlink => exact .rest rfl
  | adopt _ h =>
    unfold Sched.adopt at h
    split at h
    · cases h
    cases h
    exact .rest rfl
  | destroy h =>
    unfold kthreadDestroy at h
    split_ifs at h
    cases h
    exact (Effects.of (.delThread s _)).trans (Effects.setProc _ _ _)
  | free h =>
    obtain ⟨s₁, rfl | rfl, s₂, rfl | rfl, rfl⟩ := procFree_parts h <;>
      exact .rest rfl

/-- Changes on the run queue and the queues of the rest of the kernel. -/
structure Sleepy (σ : Scope) : Prop where
  runq : σ.queue .runq
  chan : ∀ n, σ.queue (.chan n)
  schedSwitch : σ.code .schedSwitch
  ret : ∀ v, σ.code (.ret v)

/-- Changes on all queues but those of the mutexes, with all calls but those of the switch
and of the mutexes. -/
structure Ordinary (σ : Scope) : Prop extends Sleepy σ where
  wait : ∀ p, σ.queue (.wait p)
  cleanupLoop : ∀ status, σ.code (.cleanupLoop status)
  exitReturn : σ.code .exitReturn
  waitAny : ∀ status, σ.code (.waitAny status)
  waitPid : ∀ pid p status, σ.code (.waitPid pid p status)

section
variable (o : Ordinary σ)
include o

theorem Ordinary.kernel : Kernel (fun _ => True) σ.queue fun s s' => Unqueued σ s → Effects σ s s' where
  toWakes := wakes_effects o.runq
  wait := o.wait
  relink h _ := h.effects
  own s f _ _ := .setProc s _ f
  retry s status _ := (Effects.of (.push s _ (o.cleanupLoop status))).tail (.push _ _ o.schedSwitch)
  ret _ _ _ := .rest rfl

theorem doExit_effects {status : ℤ} (h : doExit s status = .ok s') (hn : Unqueued σ s) : Effects σ s s' := by
  obtain ⟨hw, -, h⟩ := doExit_starts h
  have hexit : Effects σ s s.leaving :=
    ((Effects.of (.state s s.curthr .exited hw)).tail (.push _ _ o.exitReturn)).tail (.push _ _ o.schedSwitch)
  exact hexit.trans (o.kernel.cleanupLoop (fun _ _ => trivial) h (hexit.unqueued hn))

/-- A round of `do_waitpid`. -/
theorem Ordinary.waits (hn : Unqueued σ s) (h : (Unqueued σ s → Effects σ s s') ∨ SleepsOn s s') : Acts σ s s' := by
  rcases h with h | ⟨c, hb, hw, rfl⟩
  · exact (h hn).acts
  have hc : σ.code c := by
    cases c with
    | waitAny status => exact o.waitAny status
    | waitPid pid p status => exact o.waitPid pid p status
    | _ => exact hb.elim
  exact ⟨_, .of (.push s c hc), .sleep _ _ _ (o.wait _) o.schedSwitch hw (fit_sleep Queue.noConfusion).1⟩

end

/-! ### Steps -/

def Call.Neutral : Call → Prop
  | .lock _ | .lockCancellable _ | .unlock _ | .cancel _ _ | .kill _ _ | .killAll => False
  | _ => True

def Call.Quiet : Call → Prop
  | .lock _ | .lockCancellable _ | .unlock _ | .sleep _ | .sleepCancellable _ | .wakeup _ | .broadcast _
  | .makeRunnable _ | .yield | .switch | .store _ _ | .setipl _ => True
  | _ => False

def Call.Locks (m : ℕ) (c : Call) : Prop := c = .lock m ∨ c = .lockCancellable m ∨ c = .unlock m

section
variable (o : Sleepy σ) {c : Call} (hw : (s.thr s.curthr).ktWchan = none) (hn : Unqueued σ s)
include o hw hn

theorem quiet_acts (hc : c.Neutral) (hq : c.Quiet) (hen : Enabled s (.call c)) (h : call s c = .ok s') :
    Acts σ s s' := by
  cases c with
  | lock | lockCancellable | unlock => exact hc.elim
  | create | thread | exit | cancel | kill | killAll | waitpid | setCwd | openFile => exact hq.elim
  | sleep n => exact ⟨s, .refl s, schedSleepOn_ends h (o.chan n) (by simp) o.schedSwitch⟩
  | sleepCancellable n =>
    obtain ⟨⟨b, s₁⟩, h1, h2⟩ := ok_of_bind h
    rcases schedCancellableSleepOn_ok h1 with ⟨rfl, -, rfl⟩ | ⟨rfl, hw, rfl⟩
    · cases h2
      exact Effects.acts ((Effects.of (.state s s.curthr .sleepCancellable hw)).trans (.rest rfl))
    cases h2
    exact ⟨_, .of (.push s _ (o.ret 0)),
      .sleep _ _ _ (o.chan n) o.schedSwitch hw (fit_sleep Queue.noConfusion).2⟩
  | wakeup n =>
    obtain ⟨⟨r, s₁⟩, h1, h2⟩ := ok_of_bind h
    cases h2
    exact ((wakes_effects o.runq).wakeupOn (o.chan n) h1 hn).acts
  | broadcast n => exact ((wakes_effects o.runq).broadcastOn (o.chan n) Queue.noConfusion h hn).acts
  | makeRunnable t =>
    obtain ⟨s₁, h1, hw, rfl⟩ := schedMakeRunnable_effects h o.runq
    refine (h1.enqueue hw o.runq (by simp [Fit]) fun ht => ?_).acts
    rw [h1.curthr] at ht
    exact absurd ht hen.2.2
  | yield =>
    obtain ⟨s₁, h1, h2⟩ := ok_of_bind h
    cases h2
    obtain ⟨s₂, h3, hw, rfl⟩ := schedMakeRunnable_effects h1 o.runq
    rw [← h3.curthr] at hw ⊢
    exact ⟨s₂, h3, .sleep s₂ .runq .run o.runq o.schedSwitch hw (by simp [Fit])⟩
  | switch =>
    cases h
    exact Effects.acts (.of (.push s _ o.schedSwitch))
  | store | setipl =>
    cases h
    exact Effects.acts (.rest rfl)

/-- The calls on a mutex, but for the change of `km_holder`. -/
theorem lock_acts {m : ℕ} (hq : σ.queue (.mutex m))
    (hcode : ∀ ipl, σ.code (.lockReturn m ipl) ∧ σ.code (.lockCancellableReturn m ipl)) (hc : c.Locks m)
    (h : call s c = .ok s') : ∃ s₁ k, Acts σ s s₁ ∧ s' = { s₁ with kmHolder := k } := by
  have hipl : Effects σ s { s with ipl := IPL_HIGH } := .rest rfl
  have hfit := fit_sleep (q := .mutex m) Queue.noConfusion
  rcases hc with rfl | rfl | rfl
  · obtain ⟨-, ⟨-, rfl⟩ | ⟨-, hw, rfl⟩⟩ := kmutexLock_ok h
    · exact ⟨s, _, (Effects.refl s).acts, rfl⟩
    · exact ⟨_, _, ⟨_, hipl.tail (.push _ _ (hcode s.ipl).1), .sleep _ _ _ hq o.schedSwitch hw hfit.1⟩, rfl⟩
  · have hopen : Effects σ s (s.lockWaits m) := hipl.tail (.push _ _ (hcode s.ipl).2)
    obtain ⟨-, ⟨-, rfl⟩ | ⟨-, ⟨-, rfl⟩ | ⟨hw, rfl⟩⟩⟩ := kmutexLockCancellable_ok h
    · exact ⟨{ s with ret := 0 }, _, Effects.acts (.rest rfl), rfl⟩
    · exact ⟨_, _, (hopen.tail (.state _ _ _ hw)).acts, rfl⟩
    · exact ⟨_, _, ⟨_, hopen, .sleep _ _ _ hq o.schedSwitch hw hfit.2⟩, rfl⟩
  · obtain ⟨-, ⟨-, rfl⟩ | ⟨t, hl, -, rfl⟩⟩ := kmutexUnlock_ok h
    · exact ⟨s, _, (Effects.refl s).acts, rfl⟩
    · exact ⟨_, _, ((wakes_effects o.runq).wake s _ t hq hl hn).acts, rfl⟩

end

theorem call_acts (o : Ordinary σ) {c : Call} (hc : c.Neutral) (hen : Enabled s (.call c))
    (hcr : ∀ t p, c = .thread t p → σ.create t) (hw : (s.thr s.curthr).ktWchan = none)
    (hn : Unqueued σ s) (h : call s c = .ok s') : Acts σ s s' := by
  by_cases hq : c.Quiet
  · exact quiet_acts o.toSleepy hw hn hc hq hen h
  cases c with
  | create p => exact (procCreate_effects h (o.wait p)).acts
  | thread t p =>
    cases h
    exact (kthreadCreate_effects (hcr t p rfl) hen.2.1 hen.2.2.1 hen.2.2.2.1).acts
  | exit status => exact (doExit_effects o h hn).acts
  | waitpid pid options status => exact o.waits hn (o.kernel.doWaitpid (fun _ _ => trivial) h)
  | setCwd | openFile =>
    cases h
    exact Effects.acts (.rest rfl)
  | cancel | kill | killAll => exact hc.elim
  | _ => exact absurd trivial hq

def Code.Neutral : Code → Prop
  | .schedSwitch | .switchTail _ _ | .contextSwitch _ _ => False
  | _ => True

theorem exec_acts (o : Ordinary σ) {c : Code} (hc : c.Neutral) {b : Bool} (hn : Unqueued σ s)
    (h : exec s c = .ok (b, s')) : b = false ∧ Acts σ s s' := by
  cases c with
  | schedSwitch | switchTail | contextSwitch => exact hc.elim
  | doExit status =>
    obtain ⟨rfl, h1⟩ := exec_ok h
    exact ⟨rfl, (doExit_effects o h1 hn).acts⟩
  | intrWait ipl =>
    cases h
    have hipl : Effects σ s { s with ipl := ipl } := .rest rfl
    exact ⟨rfl, Effects.acts (hipl.tail (.push _ _ o.schedSwitch))⟩
  | cleanupLoop status =>
    obtain ⟨rfl, h1⟩ := exec_ok h
    exact ⟨rfl, (o.kernel.cleanupLoop (fun _ _ => trivial) h1 hn).acts⟩
  | waitAny status =>
    obtain ⟨rfl, h1⟩ := exec_ok h
    exact ⟨rfl, o.waits hn (o.kernel.waitAny (fun _ _ => trivial) h1)⟩
  | waitPid pid p status =>
    obtain ⟨rfl, h1⟩ := exec_ok h
    exact ⟨rfl, o.waits hn (o.kernel.waitPid (fun _ _ => trivial) h1)⟩
  | exitReturn | lockReturn | lockCancellableReturn | ret | start =>
    cases h
    exact ⟨rfl, Effects.acts (.rest rfl)⟩

end Weenix.Sched
