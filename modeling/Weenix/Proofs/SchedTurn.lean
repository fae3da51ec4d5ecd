import Weenix.Proofs.ProcCalls
import Weenix.Proofs.ProcSpare
import Weenix.Proofs.SchedSwitch

/-! What the functions of the kernel other than the switch do to a thread as a whole, with
threads cancelled: it is put to sleep, woken, made runnable, cancelled, ended or created.
A queue is emptied only with nobody on it. -/

namespace Weenix.Sched

open Exec Relation

variable {s s' s₁ : State} {q : Queue} {c : Code} {t x p m : ℕ} {ρ ρ' : Rights}
  {pid options status : ℤ} {st : StatusPtr}

/-- Two states that agree on the queues and on what says where a thread belongs. -/
structure Alike (s s' : State) : Prop where
  queue : s'.queue = s.queue
  wchan : ∀ x, (s'.thr x).ktWchan = (s.thr x).ktWchan
  state : ∀ x, (s'.thr x).ktState = (s.thr x).ktState
  cancelled : ∀ x, (s'.thr x).ktCancelled = (s.thr x).ktCancelled
  curthr : s'.curthr = s.curthr

theorem Alike.of_thr (hq : s'.queue = s.queue) (ht : s'.thr = s.thr) (hc : s'.curthr = s.curthr) : Alike s s' :=
  ⟨hq, fun _ => by rw [ht], fun _ => by rw [ht], fun _ => by rw [ht], hc⟩

theorem Spares.alike (h : Spares s s') : Alike s s' := .of_thr h.queue h.thr h.curthr

/-- What a call may do to threads: put the running thread to sleep or end it, give up a sleep that
has been cancelled, make threads runnable and create them. -/
structure Rights where
  rests : Prop
  gives : Prop
  ready : ℕ → Prop
  born : ℕ → Prop

def Rights.still (ρ : Rights) : Rights := { ρ with rests := False }

def Rights.stops (ρ : Rights) : Rights := { ρ with rests := True }

section
variable (ρ : Rights)

/-- One change to where a thread belongs. -/
inductive Turn : State → State → Prop
  | alike {s s' : State} : Alike s s' → Turn s s'
  | wake (s : State) (q : Queue) (t : ℕ) : q ≠ .runq → (s.queue q).tqList.getLast? = some t →
      Turn s (((s.unlink q t).setState t .run).link .runq t)
  | ready (s : State) (t : ℕ) : ρ.ready t → (s.thr t).ktWchan = none → Turn s ((s.setState t .run).link .runq t)
  | sleep (s : State) (q : Queue) (st : KtState) : ρ.rests → q ≠ .runq → Fit q st →
      (s.thr s.curthr).ktWchan = none → Turn s ((s.setState s.curthr st).link q s.curthr)
  | exit (s : State) : ρ.rests → (s.thr s.curthr).ktWchan = none → Turn s (s.setState s.curthr .exited)
  | giveUp (s : State) : ρ.gives → Turn s (s.setState s.curthr .sleepCancellable)
  | cancel (s : State) (t : ℕ) (r : Queue) : t ≠ s.curthr → (s.thr t).ktState = .sleepCancellable →
      (s.thr t).ktWchan = some r → Turn s ((s.detached t r).link .runq t)
  | flag (s : State) (t : ℕ) : t ≠ s.curthr → Turn s (s.setThr t fun k => { k with ktCancelled := true })
  | born (s : State) (t p : ℕ) : ρ.born t → t ≠ s.curthr → (∀ q, t ∉ (s.queue q).tqList) → Turn s (s.newThread t p)
  | clear (s : State) (q : Queue) : (s.queue q).tqList = [] → Turn s (schedQueueInit s q)

def Turns : State → State → Prop := ReflTransGen (Turn ρ)

end

theorem Turns.refl (s : State) : Turns ρ s s := ReflTransGen.refl

theorem Turns.of (h : Turn ρ s s') : Turns ρ s s' := ReflTransGen.single h

theorem Turns.trans (h1 : Turns ρ s s₁) (h2 : Turns ρ s₁ s') : Turns ρ s s' :=
  ReflTransGen.trans h1 h2

theorem Turns.tail (h1 : Turns ρ s s₁) (h2 : Turn ρ s₁ s') : Turns ρ s s' :=
  ReflTransGen.tail h1 h2

theorem Turns.alike (h : Alike s s') : Turns ρ s s' := .of (.alike h)

/-- What each change preserves, a sequence of them preserves. -/
theorem Turns.invariant {I : State → Prop} (hturn : ∀ s s', I s → Turn ρ s s' → I s')
    (h : Turns ρ s s') (hs : I s) : I s' := by
  induction h with
  | refl => exact hs
  | tail _ hd ih => exact hturn _ _ ih hd

theorem Turn.curthr (h : Turn ρ s s') : s'.curthr = s.curthr := by
  cases h with
  | alike h => exact h.curthr
  | _ => rfl

theorem Turns.curthr (h : Turns ρ s s') : s'.curthr = s.curthr :=
  h.invariant (I := fun x => x.curthr = s.curthr) (fun _ _ hx hd => hd.curthr.trans hx) rfl

theorem Turn.stops (h : Turn ρ.still s s') : Turn ρ.stops s s' := by
  cases h with
  | alike h => exact .alike h
  | wake q t hq hl => exact .wake s q t hq hl
  | ready t hr hw => exact .ready s t hr hw
  | sleep _ _ hf | exit hf => exact hf.elim
  | giveUp hg => exact .giveUp s hg
  | cancel t r ht hst hr => exact .cancel s t r ht hst hr
  | flag t ht => exact .flag s t ht
  | born t p hb ht hq => exact .born s t p hb ht hq
  | clear q hq => exact .clear s q hq

theorem Turns.stops (h : Turns ρ.still s s') : Turns ρ.stops s s' :=
  h.invariant (I := Turns ρ.stops s) (fun _ _ hs hd => hs.tail hd.stops) (.refl s)

/-- How a call goes: the running thread goes on, or it calls `sched_switch`. -/
def Goes (ρ : Rights) (s s' : State) : Prop :=
  Turns ρ.still s s' ∨ Turns ρ.stops s s' ∧ ∃ l, s'.cpu.frames = .schedSwitch :: l

theorem Turns.goes (h : Turns ρ.still s s') : Goes ρ s s' := .inl h

theorem Goes.turns (h : Goes ρ s s') : Turns ρ.stops s s' := h.elim (fun h => h.stops) And.left

theorem Turns.then (h1 : Turns ρ.still s s₁) (h2 : Goes ρ s₁ s') : Goes ρ s s' :=
  h2.imp (fun h2 => h1.trans h2) fun ⟨h2, hf⟩ => ⟨h1.stops.trans h2, hf⟩

theorem Alike.push (s : State) (c : Code) : Alike s (s.push c) := .of_thr rfl rfl rfl

theorem Alike.setProc (s : State) (p : ℕ) (f : Proc → Proc) : Alike s (s.setProc p f) := .of_thr rfl rfl rfl

/-! ### Queues -/

theorem wakes_turns : Wakes (· ≠ .runq) (Turns ρ) where
  refl := .refl
  trans := .trans
  wake s q t hq hl := .of (.wake s q t hq hl)
  reset s q _ hl := .of (.clear s q hl)

theorem sleep_goes (hw : (s.thr s.curthr).ktWchan = none) (hq : q ≠ .runq) {st : KtState} (hf : Fit q st) :
    Goes ρ s (s.sleep q st) :=
  .inr ⟨(Turns.of (.sleep s q st trivial hq hf hw)).tail (.alike (.push _ _)), _, rfl⟩

/-- The first thread of the idle process that is made runnable finds nobody on the run queue. -/
def FirstFine (s : State) (t : ℕ) : Prop :=
  (s.proc (s.thr t).ktProc).pPid = 0 → s.schedFirst = true → (s.queue .runq).tqList = []

theorem schedMakeRunnable_turns (hR : ρ.ready t) (hfine : FirstFine s t) (h : schedMakeRunnable s t = .ok s') :
    Turns ρ s s' := by
  obtain ⟨s₁, rfl | ⟨h1, h2, rfl⟩, hw, rfl⟩ := schedMakeRunnable_ok h
  · exact .of (.ready s₁ t hR hw)
  have hclear : Turns ρ s { schedQueueInit s .runq with schedFirst := false } :=
    (Turns.of (.clear s .runq (hfine h1 h2))).tail (.alike (.of_thr rfl rfl rfl))
  exact hclear.tail (.ready _ t hR hw)

/-! ### Mutexes -/

theorem kmutexLock_goes (h : kmutexLock s m = .ok s') : Goes ρ s s' := by
  obtain ⟨-, ⟨-, rfl⟩ | ⟨-, hw, rfl⟩⟩ := kmutexLock_ok h
  · exact Turns.goes (.alike (.of_thr rfl rfl rfl))
  have hpush : Turns ρ.still s ({ s with ipl := IPL_HIGH }.push (.lockReturn m s.ipl)) :=
    .alike (.of_thr rfl rfl rfl)
  refine hpush.then (sleep_goes ?_ Queue.noConfusion (fit_sleep Queue.noConfusion).1)
  exact hw

theorem kmutexLockCancellable_goes (hg : (s.thr s.curthr).ktCancelled = true → ρ.gives)
    (h : kmutexLockCancellable s m = .ok s') : Goes ρ s s' := by
  have hpush : Turns ρ.still s (s.lockWaits m) := .alike (.of_thr rfl rfl rfl)
  obtain ⟨-, ⟨-, rfl⟩ | ⟨-, ⟨hc, rfl⟩ | ⟨hw, rfl⟩⟩⟩ := kmutexLockCancellable_ok h
  · exact Turns.goes (.alike (.of_thr rfl rfl rfl))
  · exact (hpush.tail (.giveUp _ (hg hc))).goes
  refine hpush.then (sleep_goes ?_ Queue.noConfusion (fit_sleep Queue.noConfusion).2)
  exact hw

theorem kmutexUnlock_turns (h : kmutexUnlock s m = .ok s') : Turns ρ s s' := by
  obtain ⟨-, ⟨-, rfl⟩ | ⟨t, hl, -, rfl⟩⟩ := kmutexUnlock_ok h
  · exact .alike (.of_thr rfl rfl rfl)
  · exact (Turns.of (.wake s (.mutex m) t Queue.noConfusion hl)).tail (.alike (.of_thr rfl rfl rfl))

/-! ### Threads and processes -/

theorem kthreadCreate_turns (hb : ρ.born t) (ht : t ≠ s.curthr) (hq : ∀ q, t ∉ (s.queue q).tqList) :
    Turns ρ s (kthreadCreate s t p) :=
  (Turns.of (.born s t p hb ht hq)).tail (.alike (.setProc _ _ _))

theorem procCreate_turns (hq : (s.queue (.wait p)).tqList = []) (h : procCreate s p = .ok s') :
    Turns ρ s s' := by
  have hsame := procCreate_same h
  exact (Turns.of (.clear s (.wait p) hq)).tail (.alike (.of_thr hsame.queue hsame.thr hsame.curthr))

/-- The changes of `proc_cleanup` and `do_waitpid`, with the stack that they leave. -/
theorem kernel_turns : Kernel (fun _ => True) (· ≠ .runq) fun s s' =>
    Turns ρ s s' ∧ (s'.cpu = s.cpu ∨ ∃ l, s'.cpu.frames = .schedSwitch :: l) where
  refl s := ⟨.refl s, .inl rfl⟩
  trans h1 h2 := ⟨h1.1.trans h2.1, h2.2.elim (fun he => he ▸ h1.2) .inr⟩
  wake s q t hq hl := ⟨wakes_turns.wake s q t hq hl, .inl rfl⟩
  reset s q hq hl := ⟨wakes_turns.reset s q hq hl, .inl rfl⟩
  wait _ := Queue.noConfusion
  relink h := ⟨.alike h.spares.alike, .inl h.spares.cpu⟩
  own _ _ _ := ⟨.alike (.setProc _ _ _), .inl rfl⟩
  retry _ _ := ⟨.alike (.of_thr rfl rfl rfl), .inr ⟨_, rfl⟩⟩
  ret _ _ := ⟨.alike (.of_thr rfl rfl rfl), .inl rfl⟩

theorem doExit_stops (h : doExit s status = .ok s') : Turns ρ.stops s s' ∧ ∃ l, s'.cpu.frames = .schedSwitch :: l := by
  obtain ⟨hw, -, h⟩ := doExit_starts h
  have hexit : Turns ρ.stops s s.leaving := (Turns.of (.exit s trivial hw)).tail (.alike (.of_thr rfl rfl rfl))
  obtain ⟨h1, h2⟩ := kernel_turns.cleanupLoop (fun _ _ => trivial) h
  refine ⟨hexit.trans h1, ?_⟩
  rcases h2 with hcpu | hf
  · rw [hcpu]
    exact ⟨_, rfl⟩
  · exact hf

theorem kthreadCancel_other (ht : t ≠ s.curthr) (h : kthreadCancel s t status = .ok s') : Turns ρ.still s s' := by
  rcases kthreadCancel_ok ht h with rfl | rfl | ⟨r, hst, hr, rfl⟩
  · exact .refl _
  · exact .of (.flag s t ht)
  · exact .of (.cancel s t r ht hst hr)

theorem kthreadCancel_goes (h : kthreadCancel s t status = .ok s') : Goes ρ s s' := by
  by_cases ht : t = s.curthr
  · subst ht
    exact .inr (doExit_stops h)
  · exact (kthreadCancel_other ht h).goes

theorem killThreads_goes (status : ℤ) (l : List ℕ) (h : killThreads status l s = .ok s') : Goes ρ s s' := by
  induction l generalizing s s' with
  | nil =>
    cases h
    exact Turns.goes (.refl _)
  | cons t l ih =>
    unfold killThreads at h
    split_ifs at h with hex ht
    · exact ih h
    · exact kthreadCancel_goes h
    obtain ⟨s₁, h1, h2⟩ := ok_of_bind h
    exact (kthreadCancel_other ht h1).then (ih h2)

theorem procKill_goes (h : procKill s p status = .ok s') : Goes ρ s s' := by
  unfold procKill at h
  split_ifs at h
  · exact .inr (doExit_stops h)
  · exact killThreads_goes status _ h

/-- A round of `do_waitpid`. -/
theorem waits_go {Q : Prop} (h : Turns ρ.still s s' ∧ Q ∨ SleepsOn s s') : Goes ρ s s' := by
  rcases h with ⟨h, -⟩ | ⟨c, -, hw, rfl⟩
  · exact h.goes
  have hpush : Turns ρ.still s (s.push c) := .alike (.push _ _)
  refine hpush.then (sleep_goes ?_ Queue.noConfusion (fit_sleep Queue.noConfusion).1)
  exact hw

/-! ### Steps -/

theorem interrupt_turns (ws : List Wake) (h : interrupt s ws = .ok s') : Turns ρ s s' :=
  wakes_turns.interrupt (fun _ => Queue.noConfusion) ws h

def Call.ClearsFine (s : State) : Call → Prop
  | .makeRunnable t => FirstFine s t
  | .yield => FirstFine s s.curthr
  | .create p => (s.queue (.wait p)).tqList = []
  | _ => True

def Call.readies (s : State) : Call → Option ℕ
  | .makeRunnable t => some t
  | .yield => some s.curthr
  | _ => none

theorem call_goes {c : Call} (hen : Enabled s (.call c)) (hk : c ≠ .killAll) (hfine : c.ClearsFine s)
    (hg : (s.thr s.curthr).ktCancelled = true → ρ.gives) (hready : ∀ t, c.readies s = some t → ρ.ready t)
    (hborn : ∀ t p, c = .thread t p → ρ.born t) (h : call s c = .ok s') : Goes ρ s s' := by
  cases c with
  | killAll => exact absurd rfl hk
  | lock m => exact kmutexLock_goes h
  | lockCancellable m => exact kmutexLockCancellable_goes hg h
  | unlock m => exact (kmutexUnlock_turns h).goes
  | sleep n =>
    obtain ⟨hw, rfl⟩ := schedSleepOn_ok h
    exact sleep_goes hw Queue.noConfusion (fit_sleep Queue.noConfusion).1
  | sleepCancellable n =>
    obtain ⟨⟨b, s₁⟩, h1, h2⟩ := ok_of_bind h
    have hpush : Turns ρ.still s (s.push (.ret 0)) := .alike (.push _ _)
    rcases schedCancellableSleepOn_ok h1 with ⟨rfl, hc, rfl⟩ | ⟨rfl, hw, rfl⟩
    · cases h2
      exact Turns.goes ((hpush.tail (.giveUp _ (hg hc))).tail (.alike (.of_thr rfl rfl rfl)))
    · cases h2
      exact hpush.then (sleep_goes hw Queue.noConfusion (fit_sleep Queue.noConfusion).2)
  | wakeup n =>
    obtain ⟨⟨r, s₁⟩, h1, h2⟩ := ok_of_bind h
    cases h2
    exact Turns.goes (wakes_turns.wakeupOn Queue.noConfusion h1)
  | broadcast n => exact Turns.goes (wakes_turns.broadcastOn Queue.noConfusion Queue.noConfusion h)
  | makeRunnable t => exact Turns.goes (schedMakeRunnable_turns (hready t rfl) hfine h)
  | yield =>
    obtain ⟨s₁, h1, h2⟩ := ok_of_bind h
    cases h2
    have hready' : Turns ρ.stops s s₁ := schedMakeRunnable_turns (hready _ rfl) hfine h1
    exact .inr ⟨hready'.tail (.alike (.push _ _)), _, rfl⟩
  | switch =>
    cases h
    exact .inr ⟨.alike (.push _ _), _, rfl⟩
  | create p => exact (procCreate_turns hfine h).goes
  | thread t p =>
    cases h
    exact Turns.goes (kthreadCreate_turns (hborn t p rfl) hen.2.2.1 hen.2.2.2.1)
  | exit status => exact .inr (doExit_stops h)
  | cancel t status => exact kthreadCancel_goes h
  | kill p status => exact procKill_goes h
  | waitpid pid options a => exact waits_go (kernel_turns.doWaitpid (fun _ _ => trivial) h)
  | store | setCwd | openFile | setipl =>
    cases h
    exact Turns.goes (.alike (.of_thr rfl rfl rfl))

theorem exec_goes (hc : c.Neutral) {b : Bool} (h : exec s c = .ok (b, s')) : Goes ρ s s' := by
  cases c with
  | schedSwitch | switchTail | contextSwitch => exact hc.elim
  | doExit status =>
    obtain ⟨rfl, h1⟩ := exec_ok h
    exact .inr (doExit_stops h1)
  | cleanupLoop status =>
    obtain ⟨rfl, h1⟩ := exec_ok h
    exact Turns.goes (kernel_turns.cleanupLoop (fun _ _ => trivial) h1).1
  | waitAny st =>
    obtain ⟨rfl, h1⟩ := exec_ok h
    exact waits_go (kernel_turns.waitAny (fun _ _ => trivial) h1)
  | waitPid pid p st =>
    obtain ⟨rfl, h1⟩ := exec_ok h
    exact waits_go (kernel_turns.waitPid (fun _ _ => trivial) h1)
  | intrWait | exitReturn | lockReturn | lockCancellableReturn | ret | start =>
    cases h
    exact Turns.goes (.alike (.of_thr rfl rfl rfl))

end Weenix.Sched
