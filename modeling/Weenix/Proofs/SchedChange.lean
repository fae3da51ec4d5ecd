import Weenix.Lib.Exec
import Weenix.Spec.Proc

/-! The functions of the kernel as sequences of a few changes. A relation that can be composed
and that holds for each change holds for the functions. -/

namespace Weenix.Sched

open Relation Exec Function State

namespace State

variable (s : State)

def link (q : Queue) (t : ℕ) : State :=
  (s.setQueue q fun k => ⟨t :: k.tqList, k.tqSize + 1⟩).setThr t fun k =>
    { k with ktWchan := some q, ktQlink := true }

def unlink (q : Queue) (t : ℕ) : State :=
  (s.setQueue q fun k => ⟨k.tqList.dropLast, k.tqSize - 1⟩).setThr t fun k =>
    { k with ktWchan := none, ktQlink := false }

def sleep (q : Queue) (st : KtState) : State := ((s.setState s.curthr st).link q s.curthr).push .schedSwitch

def leaving : State := ((s.setState s.curthr .exited).push .exitReturn).push .schedSwitch

theorem setThr_thr (t x : ℕ) (f : Kthread → Kthread) :
    (s.setThr t f).thr x = if x = t then f (s.thr t) else s.thr x :=
  update_apply _ _ _ _

theorem setThr_field {s : State} {α : Type} (g : Kthread → α) {t : ℕ} {f : Kthread → Kthread}
    (h : g (f (s.thr t)) = g (s.thr t)) (x : ℕ) : g ((s.setThr t f).thr x) = g (s.thr x) := by
  rw [setThr_thr]
  split_ifs with hx
  · rw [h, hx]
  · rfl

theorem setQueue_list (q r : Queue) (f : Ktqueue → Ktqueue) : ((s.setQueue q f).queue r).tqList =
    if r = q then (f (s.queue q)).tqList else (s.queue r).tqList := by
  rw [← apply_ite Ktqueue.tqList]
  exact congrArg _ (update_apply _ _ _ _)

theorem setQueue_size (q r : Queue) (f : Ktqueue → Ktqueue) : ((s.setQueue q f).queue r).tqSize =
    if r = q then (f (s.queue q)).tqSize else (s.queue r).tqSize := by
  rw [← apply_ite Ktqueue.tqSize]
  exact congrArg _ (update_apply _ _ _ _)

@[simp] theorem link_list (q r : Queue) (t : ℕ) :
    ((s.link q t).queue r).tqList = if r = q then t :: (s.queue q).tqList else (s.queue r).tqList :=
  setQueue_list s q r fun k => ⟨t :: k.tqList, k.tqSize + 1⟩

@[simp] theorem unlink_list (q r : Queue) (t : ℕ) :
    ((s.unlink q t).queue r).tqList = if r = q then (s.queue q).tqList.dropLast else (s.queue r).tqList :=
  setQueue_list s q r fun k => ⟨k.tqList.dropLast, k.tqSize - 1⟩

@[simp] theorem setState_thr (t x : ℕ) (st : KtState) : (s.setState t st).thr x =
    if x = t then { s.thr t with ktState := st } else s.thr x :=
  setThr_thr s t x _

@[simp] theorem setState_wchan (t x : ℕ) (st : KtState) :
    ((s.setState t st).thr x).ktWchan = (s.thr x).ktWchan :=
  setThr_field (·.ktWchan) rfl x

@[simp] theorem setState_self (t : ℕ) (st : KtState) : ((s.setState t st).thr t).ktState = st := by
  rw [setState_thr, if_pos rfl]

end State

variable {s s' s₁ : State} {q : Queue} {t p : ℕ} {status : ℤ}

theorem State.setProc_proc (s : State) (p x : ℕ) (f : Proc → Proc) :
    (s.setProc p f).proc x = if x = p then f (s.proc p) else s.proc x :=
  update_apply _ _ _ _

theorem exec_ok {x : Except Fault State} {b : Bool} (h : x.map (false, ·) = .ok (b, s')) : b = false ∧ x = .ok s' := by
  obtain ⟨s₁, h1, h2⟩ := ok_of_map h
  cases h2
  exact ⟨rfl, h1⟩

theorem step_cont (hen : Enabled s .cont) (h : step s .cont = .ok s') :
    ∃ c l b, s.cpu.frames = c :: l ∧ (∀ ipl, c ≠ .intrWait ipl) ∧ exec s.pop c = .ok (b, s') := by
  obtain ⟨c, l, hf, hi⟩ := hen
  rw [step, hf] at h
  obtain ⟨⟨b, s₁⟩, h1, rfl⟩ := ok_of_map h
  exact ⟨c, l, b, hf, hi, h1⟩

/-! ### Queues -/

theorem ktqueueEnqueue_ok (h : ktqueueEnqueue s q t = .ok s') : (s.thr t).ktWchan = none ∧ s' = s.link q t := by
  unfold ktqueueEnqueue at h
  split_ifs at h with hw
  · exact ⟨not_not.1 hw, (Except.ok.inj h).symm⟩

theorem schedSleepOn_ok (h : schedSleepOn s q = .ok s') :
    (s.thr s.curthr).ktWchan = none ∧ s' = s.sleep q .sleep := by
  obtain ⟨s₁, h1, h2⟩ := ok_of_bind h
  obtain ⟨hw, rfl⟩ := ktqueueEnqueue_ok h1
  cases h2
  rw [setState_wchan] at hw
  exact ⟨hw, rfl⟩

/-- `sched_cancellable_sleep_on` returns at once when the thread is cancelled, but then the
state of the thread has changed. -/
theorem schedCancellableSleepOn_ok {b : Bool} (h : schedCancellableSleepOn s q = .ok (b, s')) :
    (b = false ∧ (s.thr s.curthr).ktCancelled ∧ s' = s.setState s.curthr .sleepCancellable) ∨
    (b = true ∧ (s.thr s.curthr).ktWchan = none ∧ s' = s.sleep q .sleepCancellable) := by
  unfold schedCancellableSleepOn at h
  dsimp only at h
  split_ifs at h with hc
  · cases h
    exact .inl ⟨rfl, by simpa using hc, rfl⟩
  obtain ⟨s₁, h1, h2⟩ := ok_of_bind h
  cases h2
  obtain ⟨hw, rfl⟩ := ktqueueEnqueue_ok h1
  rw [setState_wchan] at hw
  exact .inr ⟨rfl, hw, rfl⟩

/-- What `sched_wakeup_on` returns: null and no change when the queue is empty, else the
thread that has waited longest, now on the run queue. -/
theorem schedWakeupOn_ok {r : Option ℕ} (h : schedWakeupOn s q = .ok (r, s')) :
    (r = none ∧ (s.queue q).tqList = [] ∧ s' = s) ∨ ∃ t, r = some t ∧ (s.queue q).tqList.getLast? = some t ∧
      ktqueueEnqueue ((s.unlink q t).setState t .run) .runq t = .ok s' := by
  unfold schedWakeupOn ktqueueDequeue at h
  cases hl : (s.queue q).tqList.getLast? with
  | none =>
    rw [hl] at h
    cases h
    exact .inl ⟨rfl, List.getLast?_eq_none_iff.1 hl, rfl⟩
  | some t =>
    rw [hl] at h
    dsimp only at h
    split_ifs at h
    obtain ⟨s2, h1, h2⟩ := ok_of_bind h
    cases h2
    exact .inr ⟨t, rfl, rfl, h1⟩

/-- `sched_make_runnable` may empty the run queue before it enqueues the thread. -/
theorem schedMakeRunnable_ok (h : schedMakeRunnable s t = .ok s') :
    ∃ s₁, (s₁ = s ∨ (s.proc (s.thr t).ktProc).pPid = 0 ∧ s.schedFirst = true ∧
        s₁ = { schedQueueInit s .runq with schedFirst := false }) ∧
      (s₁.thr t).ktWchan = none ∧ s' = (s₁.setState t .run).link .runq t := by
  unfold schedMakeRunnable at h
  split_ifs at h with hw hf
  · obtain ⟨hw', rfl⟩ := ktqueueEnqueue_ok h
    rw [setState_wchan] at hw'
    exact ⟨_, .inr ⟨hf.1, hf.2, rfl⟩, hw', rfl⟩
  obtain ⟨hw', rfl⟩ := ktqueueEnqueue_ok h
  rw [setState_wchan] at hw'
  exact ⟨s, .inl rfl, hw', rfl⟩

/-! ### Mutexes -/

theorem kmutexLock_ok {m : ℕ} (h : kmutexLock s m = .ok s') :
    s.kmHolder m ≠ some s.curthr ∧
    ((s.kmHolder m = none ∧
        s' = { s with kmHolder := update s.kmHolder m (some s.curthr) }) ∨
      (s.kmHolder m ≠ none ∧ (s.thr s.curthr).ktWchan = none ∧
        s' = ({ s with ipl := IPL_HIGH }.push (.lockReturn m s.ipl)).sleep (.mutex m) .sleep)) := by
  unfold kmutexLock at h
  dsimp only at h
  split_ifs at h with hcur hfree
  · exact ⟨hcur, .inl ⟨hfree, (Except.ok.inj h).symm⟩⟩
  obtain ⟨hw, rfl⟩ := schedSleepOn_ok h
  exact ⟨hcur, .inr ⟨hfree, hw, rfl⟩⟩

def State.lockWaits (s : State) (m : ℕ) : State := { s with ipl := IPL_HIGH }.push (.lockCancellableReturn m s.ipl)

theorem kmutexLockCancellable_ok {m : ℕ} (h : kmutexLockCancellable s m = .ok s') :
    s.kmHolder m ≠ some s.curthr ∧
    ((s.kmHolder m = none ∧ s' = { s with kmHolder := update s.kmHolder m (some s.curthr), ret := 0 }) ∨
      (s.kmHolder m ≠ none ∧
        ((s.thr s.curthr).ktCancelled ∧ s' = (s.lockWaits m).setState s.curthr .sleepCancellable ∨
          (s.thr s.curthr).ktWchan = none ∧ s' = (s.lockWaits m).sleep (.mutex m) .sleepCancellable))) := by
  unfold kmutexLockCancellable at h
  dsimp only at h
  split_ifs at h with hcur hfree
  · exact ⟨hcur, .inl ⟨hfree, (Except.ok.inj h).symm⟩⟩
  obtain ⟨⟨b, s₁⟩, h1, h2⟩ := ok_of_bind h
  cases h2
  rcases schedCancellableSleepOn_ok h1 with ⟨-, hc, rfl⟩ | ⟨-, hw, rfl⟩
  · exact ⟨hcur, .inr ⟨hfree, .inl ⟨hc, rfl⟩⟩⟩
  · exact ⟨hcur, .inr ⟨hfree, .inr ⟨hw, rfl⟩⟩⟩

theorem kmutexUnlock_ok {m : ℕ} (h : kmutexUnlock s m = .ok s') :
    s.kmHolder m = some s.curthr ∧
    (((s.queue (.mutex m)).tqList = [] ∧ s' = { s with kmHolder := update s.kmHolder m none }) ∨
      ∃ t, (s.queue (.mutex m)).tqList.getLast? = some t ∧ t ≠ s.curthr ∧
        s' = { (((s.unlink (.mutex m) t).setState t .run).link .runq t) with
          kmHolder := update s.kmHolder m (some t) }) := by
  unfold kmutexUnlock at h
  dsimp only at h
  split_ifs at h with hcur
  refine ⟨not_not.1 hcur, ?_⟩
  obtain ⟨⟨next, s₁⟩, h1, h2⟩ := ok_of_bind h
  split_ifs at h2 with hself
  cases h2
  rw [update_self] at hself
  rcases schedWakeupOn_ok h1 with ⟨rfl, hl, rfl⟩ | ⟨t, rfl, hl, h3⟩
  · exact .inl ⟨hl, rfl⟩
  obtain ⟨-, rfl⟩ := ktqueueEnqueue_ok h3
  exact .inr ⟨t, hl, fun ht => hself (congrArg some ht), rfl⟩

/-! ### Waking -/

/-- A relation that holds when the thread that has waited longest on one of the queues `Q` is
made runnable. -/
structure Wakes (Q : Queue → Prop) (R : State → State → Prop) : Prop where
  refl : ∀ s, R s s
  trans : ∀ {s s₁ s'}, R s s₁ → R s₁ s' → R s s'
  wake : ∀ s q t, Q q → (s.queue q).tqList.getLast? = some t →
    R s (((s.unlink q t).setState t .run).link .runq t)
  reset : ∀ s q, Q q → (s.queue q).tqList = [] → R s (schedQueueInit s q)

section
variable {Q : Queue → Prop} {R : State → State → Prop} (W : Wakes Q R)

namespace Wakes

include W

theorem wakeupOn {r : Option ℕ} (hq : Q q) (h : schedWakeupOn s q = .ok (r, s')) : R s s' := by
  rcases schedWakeupOn_ok h with ⟨-, -, rfl⟩ | ⟨t, -, hl, h1⟩
  · exact W.refl _
  obtain ⟨-, rfl⟩ := ktqueueEnqueue_ok h1
  exact W.wake s q t hq hl

/-- The loop of `sched_broadcast_on` leaves nobody on the queue. -/
theorem broadcastLoop (hq : Q q) (hr : q ≠ .runq) (n : ℕ) (h : broadcastLoop q n s = .ok s')
    (hn : (s.queue q).tqList.length ≤ n) : R s s' ∧ (s'.queue q).tqList = [] := by
  induction n generalizing s s' with
  | zero =>
    cases h
    exact ⟨W.refl _, List.length_eq_zero_iff.1 (Nat.le_zero.1 hn)⟩
  | succ n ih =>
    unfold Sched.broadcastLoop ktqueueDequeue at h
    cases hl : (s.queue q).tqList.getLast? with
    | none =>
      rw [hl] at h
      cases h
      exact ⟨W.refl _, List.getLast?_eq_none_iff.1 hl⟩
    | some t =>
      rw [hl] at h
      obtain ⟨s2, h1, h2⟩ := ok_of_bind h
      obtain ⟨-, rfl⟩ := ktqueueEnqueue_ok h1
      have hlen : ((((s.unlink q t).setState t .run).link .runq t).queue q).tqList.length ≤ n := by
        rw [link_list, if_neg hr]
        change ((s.unlink q t).queue q).tqList.length ≤ n
        rw [unlink_list, if_pos rfl, List.length_dropLast]
        omega
      obtain ⟨h3, h4⟩ := ih h2 hlen
      exact ⟨W.trans (W.wake s q t hq hl) h3, h4⟩

theorem broadcastOn (hq : Q q) (hr : q ≠ .runq) (h : schedBroadcastOn s q = .ok s') : R s s' := by
  obtain ⟨s₁, h1, h2⟩ := ok_of_bind h
  cases h2
  obtain ⟨h3, h4⟩ := W.broadcastLoop hq hr _ h1 le_rfl
  exact W.trans h3 (W.reset s₁ q hq h4)

theorem interrupt (hq : ∀ n, Q (.chan n)) (ws : List Wake) (h : interrupt s ws = .ok s') : R s s' := by
  induction ws generalizing s s' with
  | nil =>
    cases h
    exact W.refl _
  | cons w ws ih =>
    obtain ⟨s₁, h1, h2⟩ := ok_of_bind h
    refine W.trans ?_ (ih h2)
    cases w with
    | wakeup n =>
      obtain ⟨⟨r, s2⟩, h3, h4⟩ := ok_of_bind h1
      cases h4
      exact W.wakeupOn (hq n) h3
    | broadcast n => exact W.broadcastOn (hq n) Queue.noConfusion h1

theorem wakeParent (hq : Q (.wait p)) (l : List ℕ) (h : wakeParent p l s = .ok s') : R s s' := by
  induction l generalizing s s' with
  | nil =>
    cases h
    exact W.refl _
  | cons t l ih =>
    unfold Sched.wakeParent at h
    split_ifs at h
    · obtain ⟨⟨r, s₁⟩, h1, h2⟩ := ok_of_bind h
      exact W.trans (W.wakeupOn hq h1) (ih h2)
    · exact ih h

end Wakes

/-! ### Lists of processes -/

/-- One change to the lists of processes. Those of `A` may become children of the init process. -/
inductive Relink (A : ℕ → Prop) : State → State → Prop
  | unlink (s : State) (p : ℕ) : Relink A s (childRemove s p)
  | adopt {s s' : State} {p : ℕ} : A p → adopt s p = .ok s' → Relink A s s'
  | destroy {s s' : State} {t : ℕ} : kthreadDestroy s t = .ok s' → Relink A s s'
  | free {s s' : State} {p : ℕ} : procFree s p = .ok s' → Relink A s s'

def Relinks (A : ℕ → Prop) : State → State → Prop := ReflTransGen (Relink A)

section
variable {A : ℕ → Prop}

theorem Relinks.rel {R : State → State → Prop} (hrefl : ∀ s, R s s) (htrans : ∀ {s s₁ s'}, R s s₁ → R s₁ s' → R s s')
    (hrelink : ∀ {s s'}, Relink A s s' → R s s') (h : Relinks A s s') : R s s' := by
  induction h with
  | refl => exact hrefl _
  | tail _ hm ih => exact htrans ih (hrelink hm)

/-- `procFree` takes the process off the lists that it is on. -/
theorem procFree_parts (h : procFree s p = .ok s') :
    ∃ s₁, (s₁ = s ∨ s₁ = { s with procList := s.procList.erase p }.setProc p fun q => { q with pListLink := false }) ∧
      ∃ s2, (s2 = s₁ ∨ s2 = childRemove s₁ p) ∧ s' = { s2 with procObjs := s2.procObjs.erase p } := by
  unfold procFree at h
  dsimp only at h
  generalize hs1 : (if (s.proc p).pListLink then
    { s with procList := s.procList.erase p }.setProc p fun q => { q with pListLink := false } else s) = s₁ at h
  generalize hs2 : (if (s₁.proc p).pChildLink then childRemove s₁ p else s₁) = s2 at h
  split_ifs at h
  cases h
  refine ⟨s₁, ?_, s2, ?_, rfl⟩
  · rw [← hs1]
    split_ifs
    · exact .inr rfl
    · exact .inl rfl
  rw [← hs2]
  split_ifs
  · exact .inr rfl
  · exact .inl rfl

theorem reparent_relinks (l : List ℕ) (hl : ∀ x ∈ l, A x) (h : reparent l s = .ok s') : Relinks A s s' := by
  induction l generalizing s s' with
  | nil =>
    cases h
    exact .refl
  | cons p l ih =>
    obtain ⟨hp, hl⟩ := List.forall_mem_cons.1 hl
    unfold reparent at h
    split_ifs at h
    · obtain ⟨s₁, h1, h2⟩ := ok_of_bind h
      exact .head (.unlink s p) (.head (.adopt hp h1) (ih hl h2))
    · exact ih hl h

theorem adoptAll_relinks (l : List ℕ) (hl : ∀ x ∈ l, A x) (h : adoptAll l s = .ok s') : Relinks A s s' := by
  induction l generalizing s s' with
  | nil =>
    cases h
    exact .refl
  | cons p l ih =>
    obtain ⟨hp, hl⟩ := List.forall_mem_cons.1 hl
    obtain ⟨s₁, h1, h2⟩ := ok_of_bind h
    exact .head (.adopt hp h1) (ih hl h2)

theorem unlinkChild_relinks (hl : ∀ x ∈ (s.proc p).pChildren, A x) (h : unlinkChild s p = .ok s') : Relinks A s s' := by
  unfold unlinkChild at h
  split_ifs at h
  · exact .head (.unlink s p) (adoptAll_relinks _ hl h)
  cases h
  exact .refl

theorem destroyExited_relinks (l : List ℕ) (h : destroyExited l s = .ok s') : Relinks A s s' := by
  induction l generalizing s s' with
  | nil =>
    cases h
    exact .refl
  | cons t l ih =>
    unfold destroyExited at h
    split_ifs at h
    · obtain ⟨s₁, h1, h2⟩ := ok_of_bind h
      exact .head (.destroy h1) (ih h2)
    · exact ih h

/-- The children of the processes that have exited. -/
def State.Orphan (s : State) (y : ℕ) : Prop := ∃ x, (s.proc x).pState = .dead ∧ y ∈ (s.proc x).pChildren

theorem State.Orphan.of_setProc {r y : ℕ} {f : Proc → Proc} (h : (s.setProc r f).Orphan y)
    (hst : ∀ a, (f a).pState = a.pState) (hch : ∀ a, (f a).pChildren = a.pChildren) : s.Orphan y := by
  obtain ⟨x, hd, hm⟩ := h
  rw [State.setProc_proc] at hd hm
  split_ifs at hd hm with hx
  · exact ⟨r, hst _ ▸ hd, hch _ ▸ hm⟩
  · exact ⟨x, hd, hm⟩

theorem State.Orphan.of_childRemove {y : ℕ} (h : (childRemove s p).Orphan y) : s.Orphan y := by
  obtain ⟨x, hd, hm⟩ := h.of_setProc (fun _ => rfl) fun _ => rfl
  exact ⟨x, hd, List.mem_of_mem_erase hm⟩

theorem Relink.orphan (h : Relink A s s') {y : ℕ} (hy : s'.Orphan y) : s.Orphan y ∨ A y := by
  cases h with
  | unlink p => exact .inl hy.of_childRemove
  | @adopt _ p hp h =>
    unfold Sched.adopt at h
    split at h
    · cases h
    rename_i i _
    cases h
    obtain ⟨x, hd, hm⟩ := hy.of_setProc (fun _ => rfl) fun _ => rfl
    rw [State.setProc_proc] at hd hm
    split_ifs at hd hm with hx
    · rcases List.mem_append.1 hm with hm | hm
      · exact .inl (State.Orphan.of_setProc ⟨i, hd, hm⟩ (fun _ => rfl) fun _ => rfl)
      · exact .inr (List.mem_singleton.1 hm ▸ hp)
    · exact .inl (State.Orphan.of_setProc ⟨x, hd, hm⟩ (fun _ => rfl) fun _ => rfl)
  | destroy h =>
    unfold kthreadDestroy at h
    split_ifs at h
    cases h
    exact .inl (hy.of_setProc (fun _ => rfl) fun _ => rfl)
  | @free _ p h =>
    obtain ⟨s₁, h1, s2, h2, rfl⟩ := procFree_parts h
    have ho1 : s₁.Orphan y := by
      rcases h2 with rfl | rfl
      · exact hy
      · exact State.Orphan.of_childRemove hy
    rcases h1 with rfl | rfl
    · exact .inl ho1
    · exact .inl (ho1.of_setProc (fun _ => rfl) fun _ => rfl)

theorem Relinks.orphan (h : Relinks A s s') (hA : ∀ y, s.Orphan y → A y) : ∀ y, s'.Orphan y → A y := by
  induction h with
  | refl => exact hA
  | tail _ hm ih => exact fun y hy => (hm.orphan hy).elim (ih y) id

theorem reapScan_relinks (l : List ℕ) {w w' : Wait} (hA : ∀ y, s.Orphan y → A y) (h : reapScan l w s = .ok (w', s')) :
    Relinks A s s' := by
  induction l generalizing w w' s s' with
  | nil =>
    cases h
    exact .refl
  | cons p l ih =>
    unfold reapScan at h
    split_ifs at h with hd
    · exact ih hA h
    obtain ⟨s₁, h1, h2⟩ := ok_of_bind h
    have hunlink := unlinkChild_relinks (fun y hy => hA y ⟨p, not_not.1 hd, hy⟩) h1
    split at h2
    · obtain ⟨s2, h3, h4⟩ := ok_of_bind h2
      cases h4
      exact hunlink.tail (.destroy h3)
    · exact hunlink.trans (ih (hunlink.orphan hA) h2)

end

/-! ### Exit and waiting -/

/-- A round of `do_waitpid` that finds nobody who has exited. -/
def Code.Barren (s : State) : Code → Prop
  | .waitAny _ => ∀ x ∈ (s.proc s.curproc).pChildren, (s.proc x).pState ≠ .dead
  | .waitPid _ x _ => (s.proc x).pState ≠ .dead
  | _ => False

theorem reapScan_barren (l : List ℕ) {w w' : Wait} (h : reapScan l w s = .ok (w', s')) (hw : w'.count = 0) :
    w.count = 0 ∧ s' = s ∧ ∀ x ∈ l, (s.proc x).pState ≠ .dead := by
  induction l generalizing w w' s s' with
  | nil =>
    cases h
    exact ⟨hw, rfl, fun _ hx => by cases hx⟩
  | cons x l ih =>
    unfold reapScan at h
    split_ifs at h with hd
    · obtain ⟨hc, rfl, hl⟩ := ih h hw
      exact ⟨hc, rfl, List.forall_mem_cons.2 ⟨hd, hl⟩⟩
    obtain ⟨s₁, -, h2⟩ := ok_of_bind h
    split at h2
    · obtain ⟨s2, -, h4⟩ := ok_of_bind h2
      cases h4
      exact absurd hw (Nat.succ_ne_zero _)
    · exact absurd (ih h2 hw).1 (Nat.succ_ne_zero _)

def SleepsOn (s s' : State) : Prop :=
  ∃ c : Code, c.Barren s ∧ (s.thr s.curthr).ktWchan = none ∧ s' = (s.push c).sleep (.wait s.curproc) .sleep

/-- A relation that holds for what `proc_cleanup` and `do_waitpid` do, as far as they give only processes
of `A` to init. -/
structure Kernel (A : ℕ → Prop) (Q : Queue → Prop) (R : State → State → Prop) : Prop extends Wakes Q R where
  wait : ∀ p, Q (.wait p)
  relink : ∀ {s s'}, Relink A s s' → R s s'
  own : ∀ s f, (∀ a, (f a).pThreads = a.pThreads ∧ (f a).pChildren = a.pChildren) → R s (s.setProc s.curproc f)
  retry : ∀ s status, R s ((s.push (.cleanupLoop status)).push .schedSwitch)
  ret : ∀ s v, R s { s with ret := v }

theorem Relink.same {A : ℕ → Prop} (h : Relink A s s') : s'.curproc = s.curproc ∧ s'.procInitproc = s.procInitproc := by
  cases h with
  | unlink => exact ⟨rfl, rfl⟩
  | adopt _ h =>
    unfold Sched.adopt at h
    split at h
    · cases h
    cases h
    exact ⟨rfl, rfl⟩
  | destroy h =>
    unfold kthreadDestroy at h
    split_ifs at h
    cases h
    exact ⟨rfl, rfl⟩
  | free h =>
    obtain ⟨s₁, rfl | rfl, s2, rfl | rfl, rfl⟩ := procFree_parts h <;> exact ⟨rfl, rfl⟩

theorem Relinks.curproc {A : ℕ → Prop} (h : Relinks A s s') : s'.curproc = s.curproc :=
  h.rel (R := fun s s' => s'.curproc = s.curproc) (fun _ => rfl) (fun h1 h2 => h2.trans h1) fun h => h.same.1

def State.died (s : State) (p : ℕ) (status : ℤ) : State :=
  s.setProc p fun q => { q with pState := .dead, pStatus := status }

theorem cleanupRest_ok (h : cleanupRest s status = .ok s') :
    ∃ s₁ parent, reparent (s.proc s.curproc).pChildren
        (s.setProc s.curproc fun q => { q with pFiles := q.pFiles.map fun _ => none }) = .ok s₁ ∧
      ((s₁.died s.curproc status).proc s.curproc).pPproc = some parent ∧
      wakeParent parent ((s₁.died s.curproc status).proc parent).pThreads (s₁.died s.curproc status) = .ok s' := by
  rw [cleanupRest] at h
  dsimp only at h
  split_ifs at h
  obtain ⟨s₁, h1, h2⟩ := ok_of_bind h
  have hch : ((s.setProc s.curproc fun q => { q with pFiles := q.pFiles.map fun _ => none }).proc
      s.curproc).pChildren = (s.proc s.curproc).pChildren := by
    rw [setProc_proc, if_pos rfl]
  rw [hch] at h1
  split at h2
  · cases h2
  · exact ⟨s₁, _, h1, ‹_›, h2⟩

/-- `kthread_exit` of the running thread, up to the loop of `proc_cleanup`. -/
theorem doExit_starts (h : doExit s status = .ok s') :
    (s.thr s.curthr).ktWchan = none ∧ 1 ≤ (s.proc s.curproc).pPid ∧ cleanupLoop s.leaving status = .ok s' := by
  rw [doExit, kthreadCancel, if_pos rfl, kthreadExit] at h
  dsimp only at h
  split_ifs at h with h1 h2
  rw [not_or, not_not] at h1
  exact ⟨h1.1, not_lt.1 fun hlt => h2 (.inl hlt), h⟩

namespace Kernel

variable {W} {A : ℕ → Prop} (K : Kernel A Q R)
include K

theorem relinks (h : Relinks A s s') : R s s' := h.rel K.refl K.trans K.relink

theorem cleanupLoop (hA : ∀ y ∈ (s.proc s.curproc).pChildren, A y) (h : cleanupLoop s status = .ok s') : R s s' := by
  unfold Sched.cleanupLoop at h
  split_ifs at h
  · cases h
    exact K.retry s status
  obtain ⟨s₁, parent, h1, -, h2⟩ := cleanupRest_ok h
  have hrelinks := reparent_relinks _ hA h1
  have hcur : s₁.curproc = s.curproc := hrelinks.curproc
  have hclose : R s s₁ :=
    K.trans (K.own s (fun q => { q with pFiles := q.pFiles.map fun _ => none }) fun _ => ⟨rfl, rfl⟩) (K.relinks hrelinks)
  have hdead : R s₁ (s₁.died s.curproc status) := hcur ▸ K.own s₁ _ fun _ => ⟨rfl, rfl⟩
  exact K.trans (K.trans hclose hdead) (K.wakeParent (K.wait _) _ h2)

theorem waitAny {st : StatusPtr} (hA : ∀ y, s.Orphan y → A y) (h : waitAny s st = .ok s') : R s s' ∨ SleepsOn s s' := by
  unfold Sched.waitAny at h
  split_ifs at h
  · cases h
    exact .inl (K.ret s _)
  obtain ⟨⟨w, s₁⟩, h1, h2⟩ := ok_of_bind h
  dsimp only at h2
  split_ifs at h2 with hw
  · obtain ⟨-, rfl, hl⟩ := reapScan_barren _ h1 hw
    obtain ⟨hwc, rfl⟩ := schedSleepOn_ok h2
    exact .inr ⟨.waitAny w.status, hl, hwc, rfl⟩
  split at h2
  · cases h2
  obtain ⟨s2, h3, h4⟩ := ok_of_bind h2
  cases h4
  exact .inl (K.trans (K.relinks ((reapScan_relinks _ hA h1).tail (.free h3))) (K.ret s2 _))

theorem waitPid {pid : ℤ} {st : StatusPtr} (hA : ∀ y, s.Orphan y → A y) (h : waitPid s pid p st = .ok s') :
    R s s' ∨ SleepsOn s s' := by
  unfold Sched.waitPid at h
  split_ifs at h with hd
  · obtain ⟨s₁, h1, h2⟩ := ok_of_bind h
    obtain ⟨s2, h3, h4⟩ := ok_of_bind h2
    obtain ⟨s3, h5, h6⟩ := ok_of_bind h4
    cases h6
    have hunlink := unlinkChild_relinks (fun y hy => hA y ⟨p, hd, hy⟩) h1
    have hrelinks := (hunlink.trans (destroyExited_relinks _ h3)).tail (.free h5)
    exact .inl (K.trans (K.relinks hrelinks) (K.ret s3 _))
  · obtain ⟨hwc, rfl⟩ := schedSleepOn_ok h
    exact .inr ⟨.waitPid pid p st, hd, hwc, rfl⟩

theorem doWaitpid {pid options : ℤ} {a : ℕ} (hA : ∀ y, s.Orphan y → A y) (h : doWaitpid s pid options a = .ok s') :
    R s s' ∨ SleepsOn s s' := by
  unfold Sched.doWaitpid at h
  split_ifs at h
  · cases h
    exact .inl (K.ret s _)
  · cases h
    exact .inl (K.ret s _)
  · exact K.waitAny hA h
  split at h
  · cases h
  split_ifs at h
  · cases h
    exact .inl (K.ret s _)
  split at h
  · cases h
    exact .inl (K.ret s _)
  · exact K.waitPid hA h

end Kernel

end

end Weenix.Sched
