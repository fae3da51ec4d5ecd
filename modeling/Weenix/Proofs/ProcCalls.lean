import Weenix.Proofs.Mutex
import Weenix.Proofs.ProcTree

/-! Calls that do not concern processes. They leave the processes alone, and of the threads
that are on no queue they touch the running one only. -/

namespace Weenix.Sched

open State

variable {s s' s₁ : State} {q : Queue} {t x m p : ℕ} {T : ℕ → Prop}

/-- `s'` differs from `s` in the queueing and the state of the threads that are queued or
in `T`. -/
structure Calls (T : ℕ → Prop) (s s' : State) : Prop where
  proc : s'.proc = s.proc
  procList : s'.procList = s.procList
  nextPid : s'.nextPid = s.nextPid
  procInitproc : s'.procInitproc = s.procInitproc
  procObjs : s'.procObjs = s.procObjs
  thrObjs : s'.thrObjs = s.thrObjs
  curthr : s'.curthr = s.curthr
  curproc : s'.curproc = s.curproc
  ktProc : ∀ x, (s'.thr x).ktProc = (s.thr x).ktProc
  ktCtx : ∀ x, (s'.thr x).ktCtx = (s.thr x).ktCtx
  onq : ∀ q x, x ∈ (s'.queue q).tqList → T x ∨ ∃ r, x ∈ (s.queue r).tqList
  state : ∀ x, ¬ T x → (∀ q, x ∉ (s.queue q).tqList) → (s'.thr x).ktState = (s.thr x).ktState

namespace Calls

theorem trans (h1 : Calls T s s₁) (h2 : Calls T s₁ s') : Calls T s s' where
  proc := h2.proc.trans h1.proc
  procList := h2.procList.trans h1.procList
  nextPid := h2.nextPid.trans h1.nextPid
  procInitproc := h2.procInitproc.trans h1.procInitproc
  procObjs := h2.procObjs.trans h1.procObjs
  thrObjs := h2.thrObjs.trans h1.thrObjs
  curthr := h2.curthr.trans h1.curthr
  curproc := h2.curproc.trans h1.curproc
  ktProc x := (h2.ktProc x).trans (h1.ktProc x)
  ktCtx x := (h2.ktCtx x).trans (h1.ktCtx x)
  onq q x hx := by
    rcases h2.onq q x hx with h | ⟨r, hr⟩
    · exact .inl h
    · exact h1.onq r x hr
  state x hT hq := by
    refine (h2.state x hT fun q hx => ?_).trans (h1.state x hT hq)
    rcases h1.onq q x hx with h | ⟨r, hr⟩
    · exact hT h
    · exact hq r hr

/-- Nothing but the stack in use, the level, the mutexes and plain data change. -/
theorem of_same (h : s' = { s with
    kmHolder := s'.kmHolder, ipl := s'.ipl, schedFirst := s'.schedFirst, cpu := s'.cpu, ret := s'.ret, ints := s'.ints }) : Calls T s s' := by
  rw [h]
  exact ⟨rfl, rfl, rfl, rfl, rfl, rfl, rfl, rfl, fun _ => rfl, fun _ => rfl, fun q x hx => .inr ⟨q, hx⟩,
    fun _ _ _ => rfl⟩

theorem refl (s : State) : Calls T s s := of_same rfl

theorem push (s : State) (c : Code) : Calls T s (s.push c) := of_same rfl

theorem pop (s : State) : Calls T s s.pop := of_same rfl

theorem setipl (s : State) (l : ℕ) : Calls T s { s with ipl := l } :=
  of_same rfl

theorem link (ht : T t ∨ ∃ r, t ∈ (s.queue r).tqList) (q : Queue) : Calls T s (s.link q t) := by
  refine ⟨rfl, rfl, rfl, rfl, rfl, rfl, rfl, rfl, setThr_field (·.ktProc) rfl, setThr_field (·.ktCtx) rfl,
    fun r x hx => ?_, fun x _ _ => setThr_field (·.ktState) rfl x⟩
  rw [link_list] at hx
  split_ifs at hx with hr
  · rcases List.mem_cons.1 hx with rfl | hx
    · exact ht
    · exact .inr ⟨q, hx⟩
  · exact .inr ⟨r, hx⟩

theorem unlink (s : State) (q : Queue) (t : ℕ) : Calls T s (s.unlink q t) := by
  have hsame := sameThreads_unlink s q t
  refine ⟨rfl, rfl, rfl, rfl, rfl, rfl, rfl, rfl, hsame.ktProc, hsame.ktCtx, fun r x hx => .inr ?_,
    fun x _ _ => hsame.ktState x⟩
  rw [unlink_list] at hx
  split_ifs at hx with hr
  · exact ⟨q, List.mem_of_mem_dropLast hx⟩
  · exact ⟨r, hx⟩

theorem setState (ht : T t) (st : KtState) : Calls T s (s.setState t st) := by
  refine ⟨rfl, rfl, rfl, rfl, rfl, rfl, rfl, rfl, setThr_field (·.ktProc) rfl, setThr_field (·.ktCtx) rfl,
    fun r x hx => .inr ⟨r, hx⟩, fun x hT _ => ?_⟩
  have hx : x ≠ t := fun he => hT (he ▸ ht)
  rw [setState_thr, if_neg hx]

theorem reset (s : State) (q : Queue) : Calls T s (schedQueueInit s q) := by
  refine ⟨rfl, rfl, rfl, rfl, rfl, rfl, rfl, rfl, fun _ => rfl, fun _ => rfl, fun r x hx => .inr ?_,
    fun _ _ _ => rfl⟩
  rw [reset_list] at hx
  split_ifs at hx
  · cases hx
  · exact ⟨r, hx⟩

/-- A thread that is queued is made runnable. -/
theorem wakeup (ht : t ∈ (s.queue q).tqList) : Calls T s (((s.unlink q t).setState t .run).link .runq t) := by
  have h : Calls (fun x => T x ∨ x = t) s (((s.unlink q t).setState t .run).link .runq t) :=
    ((Calls.unlink s q t).trans (.setState (.inr rfl) .run)).trans (.link (.inl (.inr rfl)) .runq)
  refine ⟨h.proc, h.procList, h.nextPid, h.procInitproc, h.procObjs, h.thrObjs, h.curthr, h.curproc,
    h.ktProc, h.ktCtx, fun r x hx => ?_, fun x hT hq => h.state x ?_ hq⟩
  · rcases h.onq r x hx with (hT | rfl) | hr
    · exact .inl hT
    · exact .inr ⟨q, ht⟩
    · exact .inr hr
  · rintro (hT' | rfl)
    · exact hT hT'
    · exact hq q ht

end Calls

theorem wakes_calls : Wakes (fun _ => True) (Calls T) where
  refl := .refl
  trans := .trans
  wake _ _ _ _ hl := .wakeup (List.mem_of_getLast? hl)
  reset s q _ _ := .reset s q

theorem interrupt_calls (ws : List Wake) (h : interrupt s ws = .ok s') : Calls T s s' :=
  wakes_calls.interrupt (fun _ => trivial) ws h

theorem takeRunq_calls : ∀ (n : ℕ) (s : State), Calls T s (s.takeRunq n) :=
  takeRunq_rel .refl .trans fun _ => .unlink _ .runq _

theorem schedMakeRunnable_calls (ht : T t) (h : schedMakeRunnable s t = .ok s') : Calls T s s' := by
  obtain ⟨s₁, hs1, -, rfl⟩ := schedMakeRunnable_ok h
  have hbase : Calls T s s₁ := by
    rcases hs1 with rfl | ⟨-, -, rfl⟩
    · exact .refl _
    · exact (Calls.reset s .runq).trans (.of_same rfl)
  exact (hbase.trans (.setState ht .run)).trans (.link (.inl ht) .runq)

/-- The running thread goes to sleep. -/
theorem Calls.sleep (hT : T s.curthr) (q : Queue) (st : KtState) : Calls T s (s.sleep q st) :=
  ((Calls.setState hT st).trans (.link (.inl hT) q)).trans (.push _ .schedSwitch)

end Weenix.Sched
