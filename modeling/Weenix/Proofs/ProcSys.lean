import Weenix.Proofs.ProcRun

/-! The process tree over whole runs: every process that has not been reaped is on one list
of children, that of its parent, and it is reaped once. -/

namespace Weenix.Sched

open Runs List

variable {s s' : State} {op : Op} {c o : Code} {l : List Code} {t x p k idle : ℕ} {ints : ℕ → ℤ}

theorem Shape.tail (h : Shape (.schedSwitch :: l)) : Shape l := by
  cases h with
  | outer _ ho => exact ho.elim
  | inner => exact .nil
  | both _ o _ ho => exact .outer o ho

theorem Shape.replace (h : Shape (c :: l)) (hc : c.Inner) (ho : o.Inner) : Shape (o :: l) := by
  cases h with
  | outer _ hout =>
    cases c <;> first | exact hc.elim | exact hout.elim
  | inner => exact .inner o ho
  | both _ r _ hr => exact .both o r ho hr

/-- A switch leaves every thread where it stood; the call of `sched_switch` is over. -/
theorem point_switched (hf : s.cpu.frames = c :: l) (t k x : ℕ) :
    point (switched s.pop t k) x = if x = s.curthr then l else point s x := by
  have hcalls : Calls (fun _ => False) s (s.pop.takeRunq k) := (Calls.pop s).trans (takeRunq_calls k _)
  have hcpu : (s.pop.takeRunq k).cpu = s.pop.cpu := (takeRunq_handler k s.pop).cpu fun _ => id
  have hpoint : point (switched s.pop t k) = point (s.pop.takeRunq k) := by
    have hc : s.pop.curthr = (s.pop.takeRunq k).curthr := hcalls.curthr.symm
    rw [switched, hc]
    exact point_contextSwitch _ _ _ _
  have htail : s.pop.cpu.frames = l := by
    change s.cpu.frames.tail = l
    rw [hf]
    rfl
  rw [hpoint, hcalls.point_eq, hcpu, htail]

namespace ProcInv

section
variable (h : ProcInv idle s)
include h

/-- A call that leaves no call open. -/
theorem returns (hst : Stable s') (ho : Orderly s') (hcalls : Calls (fun _ => False) s s')
    (hf : s'.cpu.frames = []) (halive : (s.proc s.curproc).pState ≠ .dead) : ProcInv idle s' := by
  refine h.calls hst ho hcalls (fun _ => False.elim) (hf ▸ .nil) (fun _ _ _ hm => ?_) fun hd => absurd hd halive
  rw [hf] at hm
  cases hm

/-- One rest of `sched_switch` on top of the stack takes the place of another. -/
theorem restack (hst : Stable s') (ho : Orderly s') (hcalls : Calls (fun _ => False) s s')
    (hf : s.cpu.frames = c :: l) (hf' : s'.cpu.frames = o :: l) (hc : c.Inner) (hoi : o.Inner) :
    ProcInv idle s' := by
  have hshape : Shape (c :: l) := by
    rw [← hf, ← point_cur]
    exact h.shape _ h.threads.cur
  refine h.calls hst ho hcalls (fun _ => False.elim) (hf' ▸ hshape.replace hc hoi) (fun pid p st hm => ?_) fun hd => ?_
  · rw [hf', mem_cons] at hm
    rcases hm with rfl | hm
    · exact hoi.elim
    rw [h.stable.proc]
    refine h.waits _ h.threads.cur pid p st ?_
    rw [point_cur, hf]
    exact mem_cons_of_mem _ hm
  · obtain ⟨d, -, hd⟩ := h.ending hd
    rw [hf] at hd
    obtain ⟨-, rfl⟩ := List.cons.inj hd
    exact ⟨o, hoi, hf'⟩

/-- On top of the stack, a call that a thread makes with no other call open is the only one. -/
theorem only_call (hf : s.cpu.frames = c :: l) (hc : c.Outer) : l = [] := by
  have hshape : Shape (c :: l) := by
    rw [← hf, ← point_cur]
    exact h.shape _ h.threads.cur
  cases hshape with
  | outer => rfl
  | inner _ hin | both _ _ hin _ => cases c <;> first | exact hin.elim | exact hc.elim

/-- The outermost call returns. -/
theorem pop (hf : s.cpu.frames = [o]) (ho : o.Outer) : ProcInv idle s.pop := by
  have hpop : s.pop.cpu.frames = [] := by
    change s.cpu.frames.tail = []
    rw [hf]
    rfl
  have hsw : o ≠ .schedSwitch ∧ ∀ ipl, o ≠ .intrWait ipl := by
    refine ⟨?_, fun ipl => ?_⟩
    · rintro rfl
      exact ho
    · rintro rfl
      exact ho
  have hw := h.stable.wchan (not_switching_cons hf hsw.1 hsw.2)
  refine h.returns ⟨h.stable.toFramed.pop, .inl hw⟩ (h.orderly.congr rfl rfl) (.pop s) hpop fun hd => ?_
  obtain ⟨c, -, hc⟩ := h.ending hd
  rw [hf] at hc
  cases hc

/-- Another thread runs. -/
theorem switched (hf : s.cpu.frames = .schedSwitch :: l)
    (ht : t ∈ (s.queue .runq).tqList) (hst : Stable (switched s.pop t k)) (ho : Orderly (switched s.pop t k)) :
    ProcInv idle (Sched.switched s.pop t k) := by
  have hcalls : Calls (fun _ => False) s (s.pop.takeRunq k) := (Calls.pop s).trans (takeRunq_calls k _)
  have hpoint := point_switched hf t k
  have hsame := fun x => contextSwitch_same { s.pop.takeRunq k with
    curthr := t, curproc := (s.pop.thr t).ktProc, ipl := s.pop.ipl } s.pop.curthr t x
  have hproc : ∀ x, ((Sched.switched s.pop t k).thr x).ktProc = (s.thr x).ktProc :=
    fun x => (hsame x).2.2.1.trans (hcalls.ktProc x)
  have hstate : ∀ x, ((Sched.switched s.pop t k).thr x).ktState = ((s.pop.takeRunq k).thr x).ktState :=
    fun x => (hsame x).2.1
  have hthreads := h.threads.calls h.orderly hcalls fun _ => False.elim
  have hobjs : (Sched.switched s.pop t k).thrObjs = s.thrObjs := hcalls.thrObjs
  have hps : (Sched.switched s.pop t k).proc = s.proc := hcalls.proc
  have hpo : (Sched.switched s.pop t k).procObjs = s.procObjs := hcalls.procObjs
  have hframes : Shape s.cpu.frames := by
    rw [← point_cur]
    exact h.shape _ h.threads.cur
  refine ⟨hst, ho, (h.tree.calls hcalls).congr (fun _ => .refl _) rfl rfl rfl rfl, ⟨?_, fun q x hx => ?_, hthreads.objs,
    fun x hx => ?_, fun q hq x hx => ?_, fun q hq hd => ?_⟩, fun x hx => ?_, fun x hx pid q st hm => ?_, fun hd => ?_⟩
  · rw [hobjs]
    exact h.threads.onq _ t ht
  · exact hthreads.onq q x hx
  · rw [hobjs] at hx
    rw [hproc, hps, hpo]
    exact h.threads.owner x hx
  · rw [hpo] at hq
    rw [hps] at hx
    rw [hobjs, hproc]
    exact h.threads.own q hq x hx
  · obtain ⟨u, hu, hex⟩ := hthreads.dead q hq hd
    exact ⟨u, hu, (hstate u).trans hex⟩
  · rw [hobjs] at hx
    rw [hpoint]
    split_ifs with hxc
    · exact (hf ▸ hframes).tail
    · exact h.shape x hx
  · rw [hobjs] at hx
    rw [hpoint] at hm
    rw [hps, hproc]
    refine h.waits x hx pid q st ?_
    split_ifs at hm with hxc
    · rw [hxc, point_cur, hf]
      exact mem_cons_of_mem _ hm
    · exact hm
  · rw [hps] at hd
    exact absurd hd (h.alive_of_mem ht)

end

end ProcInv

/-! ### Waiting -/

/-- The rests of `do_waitpid`, with the child waited for on the caller's list. -/
def Code.Waits (s : State) : Code → Prop
  | .waitAny _ => True
  | .waitPid _ p _ => p ∈ (s.proc s.curproc).pChildren
  | _ => False

/-- The process that is disposed of and the value that is returned then. -/
def Code.Reaping (s : State) (p : ℕ) (v : ℤ) : Code → Prop
  | .waitAny _ => v = (s.proc p).pPid
  | .waitPid pid q _ => p = q ∧ v = pid
  | _ => False

/-- What a round of `do_waitpid` does, with `c` the round: it returns an error, or the caller
sleeps before the next round, or one exited child goes. -/
inductive Waited (c : Code) (s : State) : State → Prop
  | error (v : ℤ) : v < 0 → Waited c s { s with ret := v }
  | sleep : c.Waits s → Waited c s ((s.push c).sleep (.wait s.curproc) .sleep)
  | reap (p t : ℕ) (v : ℤ) : Reapable s p t → c.Reaping s p v → Waited c s { s.reaped p t with ret := v }

namespace ProcInv

section
variable (h : ProcInv idle s) (hw : (s.thr s.curthr).ktWchan = none)
include h hw

theorem waitAny_waited (st : StatusPtr) : ∃ s', Sched.waitAny s st = .ok s' ∧ Waited (.waitAny st) s s' := by
  rcases h.waitAny hw st with he | ⟨-, he⟩ | ⟨p, t, hr, he⟩
  · exact ⟨_, he, .error (-1) (by decide)⟩
  · exact ⟨_, he, .sleep trivial⟩
  · exact ⟨_, he, .reap p t _ hr rfl⟩

theorem waitPid_waited (hp : p ∈ (s.proc s.curproc).pChildren) (pid : ℤ) (st : StatusPtr) :
    ∃ s', Sched.waitPid s pid p st = .ok s' ∧ Waited (.waitPid pid p st) s s' := by
  rcases h.waitPid hw hp pid st with ⟨-, he⟩ | ⟨t, hr, he⟩
  · exact ⟨_, he, .sleep hp⟩
  · exact ⟨_, he, .reap p t _ hr ⟨rfl, rfl⟩⟩

theorem doWaitpid_waited {pid : ℤ}
    (hpid : pid = -1 ∨ procLookup s pid ≠ none) (options : ℤ) (a : ℕ) :
    ∃ s' c, Sched.doWaitpid s pid options a = .ok s' ∧ Waited c s s' ∧
      (c = .waitAny (.out a) ∧ (pid = -1 ∨ s'.ret = -ECHILD) ∨ ∃ p q, (s.proc s.curproc).pChildren.getLast? = some p ∧
        procLookup s pid = some q ∧ c = .waitPid pid p (.out a)) := by
  rcases h.doWaitpid pid options a hpid with he | ⟨hany, he⟩ | ⟨p, q, hp, hq, -, he⟩
  · exact ⟨_, .waitAny (.out a), he, .error (-ECHILD) (by decide), .inl ⟨rfl, .inr rfl⟩⟩
  · rw [he]
    obtain ⟨s', h1, h2⟩ := h.waitAny_waited hw (.out a)
    exact ⟨s', _, h1, h2, .inl ⟨rfl, .inl hany⟩⟩
  rw [he]
  obtain ⟨s', h1, h2⟩ := h.waitPid_waited hw (mem_of_getLast? hp) pid (.out a)
  exact ⟨s', _, h1, h2, .inr ⟨p, q, hp, hq, rfl⟩⟩

end

theorem waited (h : ProcInv idle s) (hf : s.cpu.frames = []) (hst : Stable s') (ho : Orderly s')
    (hs : Waited c s s') : ProcInv idle s' := by
  have halive := h.alive_nil hf
  cases hs with
  | error v => exact h.returns hst ho (.of_same rfl) hf halive
  | sleep hc =>
    have hcalls : Calls (fun x => x = s.curthr) s ((s.push c).sleep (.wait s.curproc) .sleep) :=
      (Calls.push s c).trans (.sleep (by rfl) _ _)
    have hframes : ((s.push c).sleep (.wait s.curproc) .sleep).cpu.frames = [.schedSwitch, c] := by
      change .schedSwitch :: c :: s.cpu.frames = _
      rw [hf]
    have hout : c.Outer := by
      cases c <;> first | exact hc.elim | exact trivial
    refine h.calls hst ho hcalls ?_ ?_ (fun pid p st hm => ?_) fun hd => absurd hd halive
    · rintro x rfl
      exact ⟨h.threads.cur, h.stable.proc ▸ halive⟩
    · rw [hframes]
      exact .both _ _ trivial hout
    rw [hframes] at hm
    obtain rfl : .waitPid pid p st = c := by simpa using hm
    exact hc
  | reap p t v hr hv => exact h.reaped hr v hf hst ho

/-! ### Steps and runs -/

section
variable (h : ProcInv idle s)
include h

theorem pop_wchan (hf : s.cpu.frames = [o]) (ho : o.Outer) : (s.pop.thr s.pop.curthr).ktWchan = none := by
  refine (h.pop hf ho).stable.wchan (not_switching_nil ?_)
  change s.cpu.frames.tail = []
  rw [hf]
  rfl

/-- A thread in `do_waitpid(pid)` waits for a child of its process. -/
theorem waitPid_child {pid : ℤ} {st : StatusPtr}
    (hf : s.cpu.frames = .waitPid pid p st :: l) : p ∈ (s.proc s.curproc).pChildren := by
  rw [h.stable.proc]
  refine h.waits _ h.threads.cur pid p st ?_
  rw [point_cur, hf]
  exact mem_cons_self

theorem exec_outer (hf : s.cpu.frames = [o]) (ho : o.Outer) {b : Bool} (hs : exec s.pop o = .ok (b, s')) :
    Waited o s.pop s' ∨ ∃ ipl v, s' = { s.pop with ipl := ipl, ret := v } := by
  have hpop := h.pop hf ho
  have hw := h.pop_wchan hf ho
  cases o with
  | exitReturn | lockReturn | lockCancellableReturn | ret | start =>
    cases hs
    exact .inr ⟨_, _, rfl⟩
  | waitAny st =>
    obtain ⟨rfl, h1⟩ := exec_ok hs
    obtain ⟨s2, h3, h4⟩ := hpop.waitAny_waited hw st
    obtain rfl := Except.ok.inj (h1.symm.trans h3)
    exact .inl h4
  | waitPid pid p st =>
    obtain ⟨rfl, h1⟩ := exec_ok hs
    obtain ⟨s2, h3, h4⟩ := hpop.waitPid_waited hw (h.waitPid_child hf) pid st
    obtain rfl := Except.ok.inj (h1.symm.trans h3)
    exact .inl h4
  | _ => exact ho.elim

/-- How the running thread goes on: it halts, another runs, or its one open call goes on. -/
theorem exec_cases (hf : s.cpu.frames = c :: l) (hi : ∀ ipl, c ≠ .intrWait ipl) {b : Bool}
    (hs : exec s.pop c = .ok (b, s')) :
    (c = .schedSwitch ∧ (s.queue .runq).tqList = [] ∧ s' = { s.pop with ipl := IPL_LOW }.push (.intrWait s.ipl)) ∨
    (∃ t k, c = .schedSwitch ∧ t ∈ (s.queue .runq).tqList ∧ s' = Sched.switched s.pop t k) ∨
    l = [] ∧ c.Outer ∧ (Waited c s.pop s' ∨ ∃ ipl v, s' = { s.pop with ipl := ipl, ret := v }) := by
  have hshape : Shape (c :: l) := by
    rw [← hf, ← point_cur]
    exact h.shape _ h.threads.cur
  by_cases hsw : c = .schedSwitch
  · subst hsw
    have hpop : Orderly s.pop := h.orderly.congr rfl rfl
    rcases hpop.schedSwitch hs with ⟨hne, rfl⟩ | ⟨t, ht, k, rfl⟩
    · exact .inl ⟨rfl, hne, rfl⟩
    · exact .inr (.inl ⟨t, k, rfl, ht, rfl⟩)
  · have hout : l = [] ∧ c.Outer := by
      cases hshape with
      | outer _ hc => exact ⟨rfl, hc⟩
      | inner _ hc | both _ _ hc _ =>
        cases c <;> first | exact hc.elim | exact absurd rfl hsw | exact absurd rfl (hi _)
    obtain ⟨rfl, hout⟩ := hout
    exact .inr (.inr ⟨rfl, hout, h.exec_outer hf hout hs⟩)

theorem cont (hst : Stable s') (ho : Orderly s') (hf : s.cpu.frames = c :: l)
    (hi : ∀ ipl, c ≠ .intrWait ipl) {b : Bool} (hs : exec s.pop c = .ok (b, s')) : ProcInv idle s' := by
  rcases h.exec_cases hf hi hs with ⟨rfl, -, rfl⟩ | ⟨t, k, rfl, ht, rfl⟩ | ⟨rfl, hout, hex⟩
  · refine h.restack (o := .intrWait s.ipl) hst ho ((Calls.pop s).trans ?_) hf ?_ trivial trivial
    · exact .of_same rfl
    change .intrWait s.ipl :: s.cpu.frames.tail = _
    rw [hf]
    rfl
  · exact h.switched hf ht hst ho
  have hpop := h.pop hf hout
  have hnil : s.pop.cpu.frames = [] := by
    change s.cpu.frames.tail = []
    rw [hf]
    rfl
  rcases hex with hwait | ⟨ipl, v, rfl⟩
  · exact hpop.waited hnil hst ho hwait
  · exact hpop.returns hst ho (.of_same rfl) hnil (hpop.alive_nil hnil)

theorem intr {ws : List Wake} (hst : Stable s') (ho : Orderly s')
    (hen : Enabled s (.intr ws)) (hs : step s (.intr ws) = .ok s') : ProcInv idle s' := by
  rcases step_intr hen hs with ⟨s1, ipl, l, hf, h1, heff, rfl⟩ | ⟨hf, h1⟩
  · have hcpu := heff.cpu fun _ => id
    refine h.restack (o := .schedSwitch) hst ho (((interrupt_calls ws h1).trans (.pop s1)).trans ?_) hf ?_ trivial trivial
    · exact .of_same rfl
    change .schedSwitch :: s1.cpu.frames.tail = _
    rw [hcpu, hf]
    rfl
  · have heff : Effects (handler True) s s' := handler_effects h1 (.inl trivial)
    refine h.returns hst ho (interrupt_calls ws h1) ?_ (h.alive_nil hf)
    rw [heff.cpu fun _ => id, hf]

theorem call {c : Call} (hst : Stable s') (ho : Orderly s')
    (hen : Enabled s (.call c)) (ha : TreeAllowed s (.call c)) (hs : call s c = .ok s') : ProcInv idle s' := by
  have hw := h.stable.wchan (not_switching_nil hen.1)
  cases c with
  | create p => exact h.create hst ho hen.1 hen.2 ha hs
  | thread t p =>
    cases hs
    exact h.thread hst ho hen.2.1 hen.2.2.1 hen.2.2.2.2 ha
  | exit status => exact h.exit hst ho hen.1 hw ha hs
  | waitpid pid options a =>
    obtain ⟨s1, c, h1, h2, -⟩ := h.doWaitpid_waited hw ha options a
    obtain rfl := Except.ok.inj (hs.symm.trans h1)
    exact h.waited hen.1 hst ho h2
  | setCwd v | openFile fd f =>
    exact h.setProc hst ho s.curproc (Except.ok.inj hs).symm fun _ => ⟨⟨rfl, rfl, rfl, rfl, rfl, rfl⟩, rfl⟩
  | cancel | kill | killAll => exact ha.elim
  | _ => exact h.quiet hst ho (by trivial) hen ha hs

theorem step (hs : TreeStep s op s') : ProcInv idle s' := by
  obtain ⟨hen, ha, hs⟩ := hs
  have hcancel : ¬ op.Cancels := by
    intro hc
    cases op with
    | call c => cases c <;> first | exact ha.elim | exact hc.elim
    | cont | intr ws => exact hc.elim
  have hst := h.stable.step ⟨hen, hs, fun _ _ _ => h.orderly.takes⟩
  have ho := h.orderly.step h.stable hen hcancel hs
  cases op with
  | call c => exact h.call hst ho hen ha hs
  | intr ws => exact h.intr hst ho hen hs
  | cont =>
    obtain ⟨c, l, b, hf, hi, h1⟩ := step_cont hen hs
    exact h.cont hst ho hf hi h1

end

end ProcInv

section
variable (p t : ℕ) (ints : ℕ → ℤ)

theorem orderly_boot : Orderly (bootState p t ints) :=
  ⟨(stable_boot p t ints).queued, fun _ _ h => (by cases h), fun _ => rfl⟩

theorem procTree_boot : ProcTree p (bootState p t ints) where
  list := nodup_singleton p
  objs := nodup_singleton p
  same _ := Iff.rfl
  linked _ _ := rfl
  root := ⟨mem_singleton_self p, rfl, rfl⟩
  parent _ hq hne := absurd (mem_singleton.1 hq) hne
  child _ _ _ h := by cases h
  nodup _ _ := nodup_nil
  pids q hq r hr _ := (mem_singleton.1 hq).trans (mem_singleton.1 hr).symm
  range _ _ := ⟨le_rfl, show PID_IDLE < PROC_MAX_COUNT by decide⟩
  next := ⟨show (0 : ℤ) ≤ 1 by decide, show 1 < PROC_MAX_COUNT by decide⟩
  fresh _ := ⟨rfl, rfl⟩
  init _ h := by cases h
  strict _ _ h := by cases h
  childless _ _ _ := rfl

theorem threads_boot : Threads (bootState p t ints) where
  cur := mem_singleton_self t
  onq _ _ h := by cases h
  objs := nodup_singleton t
  owner x hx := ⟨mem_singleton_self p, by
    rw [mem_singleton.1 hx]
    exact if_pos rfl⟩
  own q hq x hx := by
    obtain rfl := mem_singleton.1 hq
    change x ∈ (if q = q then [t] else []) at hx
    rw [if_pos rfl] at hx
    exact ⟨hx, rfl⟩
  dead _ _ h := by cases h

theorem procInv_boot : ProcInv p (bootState p t ints) := by
  have hpoint : ∀ x ∈ (bootState p t ints).thrObjs, point (bootState p t ints) x = [] := by
    intro x hx
    obtain rfl := mem_singleton.1 hx
    exact point_cur _
  refine ⟨stable_boot p t ints, orderly_boot p t ints, procTree_boot p t ints, threads_boot p t ints,
    fun x hx => ?_, fun x hx _ _ _ hm => ?_, fun h => by cases h⟩
  · rw [hpoint x hx]
    exact .nil
  · rw [hpoint x hx] at hm
    cases hm

end

theorem procInv_run {ops : List Op} (h : Run TreeStep (bootState p t ints) ops s) : ProcInv p s :=
  h.invariant (procInv_boot p t ints) fun _ _ _ hs hstep => hs.step hstep

/-! ### Which processes there are -/

def Op.created : Op → Option ℕ
  | .call (.create p) => some p
  | _ => none

def Reaps (s s' : State) (p : ℕ) : Prop :=
  ∃ t v cpu, Reapable s p t ∧ s' = { s.reaped p t with cpu := cpu, ret := v }

theorem Waited.objs (h : Waited c s s') : s'.procObjs = s.procObjs ∨ ∃ p, Reaps s s' p := by
  cases h with
  | error v | sleep hc => exact .inl rfl
  | reap p t v hr hv => exact .inr ⟨p, t, v, s.cpu, hr, rfl⟩

namespace ProcInv

theorem cont_objs (h : ProcInv idle s) (hf : s.cpu.frames = c :: l) (hi : ∀ ipl, c ≠ .intrWait ipl) {b : Bool}
    (hs : exec s.pop c = .ok (b, s')) : s'.procObjs = s.procObjs ∨ ∃ p, Reaps s s' p := by
  rcases h.exec_cases hf hi hs with ⟨-, -, rfl⟩ | ⟨t, k, -, -, rfl⟩ | ⟨-, -, hwait | ⟨ipl, v, rfl⟩⟩
  · exact .inl rfl
  · have hcalls : Calls (fun _ => False) s (s.pop.takeRunq k) := (Calls.pop s).trans (takeRunq_calls k _)
    exact .inl hcalls.procObjs
  · rcases hwait.objs with he | ⟨p, t, v, cpu, hr, rfl⟩
    · exact .inl he
    exact .inr ⟨p, t, v, cpu, ⟨hr.child, hr.dead, hr.thread, hr.exited, hr.thrObj, hr.ktProc, hr.childLink,
      hr.listLink, hr.children, hr.procObj⟩, rfl⟩
  · exact .inl rfl

/-- A step creates one process, or disposes of one, or neither. -/
theorem step_objs (h : ProcInv idle s) (hs : TreeStep s op s') :
    (∃ p, op.created = some p ∧ p ∉ s.procObjs ∧ s'.procObjs = p :: s.procObjs) ∨
    op.created = none ∧ (s'.procObjs = s.procObjs ∨ ∃ p, Reaps s s' p) := by
  obtain ⟨hen, ha, hs⟩ := hs
  cases op with
  | intr ws =>
    refine .inr ⟨rfl, .inl ?_⟩
    rcases step_intr hen hs with ⟨s1, ipl, l, -, h1, -, rfl⟩ | ⟨-, h1⟩
    · exact (interrupt_calls (T := fun _ => False) ws h1).procObjs
    · exact (interrupt_calls (T := fun _ => False) ws h1).procObjs
  | cont =>
    obtain ⟨c, l, b, hf, hi, h1⟩ := step_cont hen hs
    exact .inr ⟨rfl, h.cont_objs hf hi h1⟩
  | call c =>
    change Sched.call s c = .ok s' at hs
    cases c with
    | create p =>
      obtain ⟨pid, -, -, -, -, -, hc⟩ := h.tree.procCreate_spec hen.2 h.curproc.1 ha hs
      exact .inl ⟨p, rfl, hen.2, hc.procObjs⟩
    | exit status =>
      obtain ⟨u, -, hdied, hcalls, -⟩ := h.exit_spec ha hs
      exact .inr ⟨rfl, .inl (hcalls.procObjs.trans hdied.procObjs)⟩
    | waitpid pid options a =>
      have hw := h.stable.wchan (not_switching_nil hen.1)
      obtain ⟨s1, c, h1, h2, -⟩ := h.doWaitpid_waited hw ha options a
      obtain rfl := Except.ok.inj (hs.symm.trans h1)
      exact .inr ⟨rfl, h2.objs⟩
    | thread | setCwd | openFile =>
      cases hs
      exact .inr ⟨rfl, .inl rfl⟩
    | cancel | kill | killAll => exact ha.elim
    | _ => exact .inr ⟨rfl, .inl (quiet_calls (by trivial) hen.1 hs).1.procObjs⟩

end ProcInv

/-! ### The tree over whole runs -/

/-- A state, with how often each object has been made a process and how often the process
that it was has been disposed of. -/
structure Life where
  st : State
  made : ℕ → ℕ
  reaped : ℕ → ℕ

namespace Life

def boot (p t : ℕ) (ints : ℕ → ℤ) : Life := ⟨bootState p t ints, fun _ => 0, fun _ => 0⟩

def next (L : Life) (op : Op) (s' : State) : Life where
  st := s'
  made p := L.made p + if op.created = some p then 1 else 0
  reaped p := L.reaped p + if p ∈ L.st.procObjs ∧ p ∉ s'.procObjs then 1 else 0

/-- Every process made, and the idle process, is there or has been disposed of, once. -/
def Counted (idle : ℕ) (L : Life) : Prop :=
  ∀ p, L.reaped p + (if p ∈ L.st.procObjs then 1 else 0) = L.made p + if p = idle then 1 else 0

end Life

def LifeStep (L : Life) (op : Op) (L' : Life) : Prop := TreeStep L.st op L'.st ∧ L' = L.next op L'.st

def Op.Waits (s : State) : Op → Prop
  | .call (.waitpid _ _ _) => True
  | .cont => (∃ st, .waitAny st ∈ s.cpu.frames.head?) ∨ ∃ pid p st, .waitPid pid p st ∈ s.cpu.frames.head?
  | _ => False

structure TreeOk (idle : ℕ) (L : Life) : Prop where
  /-- a process that has not been reaped is on one list of children, that of its parent -/
  child : ∀ p ∈ L.st.procObjs, p ≠ idle → ∃ q ∈ L.st.procObjs, (L.st.proc p).pPproc = some q ∧
    (L.st.proc q).pChildren.count p = 1 ∧ ∀ x ∈ L.st.procObjs, x ≠ q → p ∉ (L.st.proc x).pChildren
  list : L.st.procList.Nodup ∧ ∀ p, p ∈ L.st.procList ↔ p ∈ L.st.procObjs
  pids : (L.st.procList.map fun p => (L.st.proc p).pPid).Nodup
  once : L.Counted idle
  /-- what goes has exited, and nothing else goes -/
  exited : ∀ op s', TreeStep L.st op s' → ∀ p ∈ L.st.procObjs, p ∉ s'.procObjs →
    (L.st.proc p).pState = .dead ∧ s'.procObjs = L.st.procObjs.erase p
  /-- `do_waitpid` does not stop the kernel, by a second disposal or otherwise -/
  total : ∀ op, op.Waits L.st → Enabled L.st op → TreeAllowed L.st op → ∃ s', step L.st op = .ok s'

theorem Life.Counted.next {L : Life} (hc : L.Counted idle) (h : ProcInv idle L.st)
    (hs : TreeStep L.st op s') : (L.next op s').Counted idle := by
  intro p
  have hp := hc p
  change L.reaped p + (if p ∈ L.st.procObjs ∧ p ∉ s'.procObjs then 1 else 0) +
    (if p ∈ s'.procObjs then 1 else 0) = L.made p + (if op.created = some p then 1 else 0) + if p = idle then 1 else 0
  rcases h.step_objs hs with ⟨q, hq, hnew, hobjs⟩ | ⟨hq, hobjs | ⟨q, t, v, cpu, hr, rfl⟩⟩
  · have hmem : p ∈ s'.procObjs ↔ p = q ∨ p ∈ L.st.procObjs := by rw [hobjs, mem_cons]
    by_cases hpq : p = q
    · subst hpq
      simp only [hnew, if_false] at hp
      simp [hmem, hnew, hq]
      omega
    · have hqp : ¬ q = p := fun he => hpq he.symm
      simp only [hmem, hpq, false_or, and_not_self, if_false, hq, Option.some.injEq, hqp]
      omega
  · simp only [hobjs, and_not_self, if_false, hq, reduceCtorEq]
    omega
  have hmem : p ∈ L.st.procObjs.erase q ↔ p ≠ q ∧ p ∈ L.st.procObjs := h.tree.objs.mem_erase_iff
  change L.reaped p + (if p ∈ L.st.procObjs ∧ p ∉ L.st.procObjs.erase q then 1 else 0) +
    (if p ∈ L.st.procObjs.erase q then 1 else 0) = _
  by_cases hpq : p = q
  · subst hpq
    simp only [hr.procObj, if_true] at hp
    simp only [hmem, hr.procObj, ne_eq, not_true_eq_false, false_and, not_false_eq_true, and_self, if_true,
      if_false, hq, reduceCtorEq]
    omega
  · simp only [hmem, ne_eq, hpq, not_false_eq_true, true_and, and_not_self, if_false, hq, reduceCtorEq]
    omega

theorem ProcInv.waits_total (h : ProcInv idle s) (hop : op.Waits s) (hen : Enabled s op)
    (ha : TreeAllowed s op) : ∃ s', Sched.step s op = .ok s' := by
  cases op with
  | intr ws => exact hop.elim
  | call c =>
    cases c with
    | waitpid pid options a =>
      have hw := h.stable.wchan (not_switching_nil hen.1)
      obtain ⟨s', c, h1, -, -⟩ := h.doWaitpid_waited hw ha options a
      exact ⟨s', h1⟩
    | _ => exact hop.elim
  | cont =>
    obtain ⟨c, l, hf, hi⟩ := hen
    rw [Op.Waits, hf] at hop
    rw [Sched.step, hf]
    rcases hop with ⟨st, hst⟩ | ⟨pid, p, st, hst⟩
    · obtain rfl : c = .waitAny st := Option.some.inj hst
      obtain rfl := h.only_call hf trivial
      obtain ⟨s', h1, -⟩ := (h.pop hf trivial).waitAny_waited (h.pop_wchan hf trivial) st
      exact ⟨s', by simp [exec, h1, Except.map]⟩
    obtain rfl : c = .waitPid pid p st := Option.some.inj hst
    obtain rfl := h.only_call hf trivial
    obtain ⟨s', h1, -⟩ := (h.pop hf trivial).waitPid_waited (h.pop_wchan hf trivial) (h.waitPid_child hf) pid st
    exact ⟨s', by simp [exec, h1, Except.map]⟩

theorem ProcInv.treeOk {L : Life} (h : ProcInv idle L.st) (hc : L.Counted idle) : TreeOk idle L where
  child p hp hne := by
    obtain ⟨-, q, hq, hpq, hm⟩ := h.tree.parent p hp hne
    refine ⟨q, hq, hpq, count_eq_one_of_mem (h.tree.nodup q hq) hm, fun x hx hxq hxm => ?_⟩
    exact hxq (h.tree.parent_unique hx hq hxm hm)
  list := ⟨h.tree.list, h.tree.same⟩
  pids := List.Nodup.map_on (fun x hx y hy he =>
    h.tree.pids x ((h.tree.same x).1 hx) y ((h.tree.same y).1 hy) he) h.tree.list
  once := hc
  exited op s' hs p hp hn := by
    rcases h.step_objs hs with ⟨q, -, -, hobjs⟩ | ⟨-, hobjs | ⟨q, t, v, cpu, hr, rfl⟩⟩
    · rw [hobjs] at hn
      exact absurd (mem_cons_of_mem q hp) hn
    · rw [hobjs] at hn
      exact absurd hp hn
    obtain rfl : p = q := by
      by_contra hpq
      exact hn (h.tree.objs.mem_erase_iff.2 ⟨hpq, hp⟩)
    exact ⟨hr.dead, rfl⟩
  total _ hw hen ha := h.waits_total hw hen ha

theorem life_run {ops : List Op} {L : Life} (h : Run LifeStep (Life.boot p t ints) ops L) :
    ProcInv p L.st ∧ L.Counted p := by
  refine h.invariant (I := fun L => ProcInv p L.st ∧ L.Counted p) ⟨procInv_boot p t ints, fun q => ?_⟩ ?_
  · change 0 + (if q ∈ [p] then 1 else 0) = 0 + if q = p then 1 else 0
    simp
  rintro L op L' ⟨hinv, hc⟩ ⟨hs, he⟩
  refine ⟨hinv.step hs, ?_⟩
  rw [he]
  exact hc.next hinv hs

/-- The process tree is kept in every run of process creation, exit and waiting, with one
thread to a process, while init is alive. -/
theorem process_tree_kept {ops : List Op} {L : Life} (h : Run LifeStep (Life.boot p t ints) ops L) :
    TreeOk p L :=
  (life_run h).1.treeOk (life_run h).2

/-! ### Runs by computation -/

def State.admits (s : State) : Op → Bool
  | .intr _ => false
  | .cont => match s.cpu.frames with
    | [] | .intrWait _ :: _ => false
    | _ => true
  | .call c => s.cpu.frames = [] && match c with
    | .cancel _ _ | .kill _ _ | .killAll => false
    | .makeRunnable t => t ∈ s.thrObjs && t ≠ s.curthr && (s.thr t).ktState ≠ .exited
    | .create p => p ∉ s.procObjs && (s.procList.length : ℤ) < PROC_MAX_COUNT
    | .thread t p => t ∉ s.thrObjs && t ≠ s.curthr && p ∈ s.procObjs && (s.proc p).pThreads = []
    | .exit _ => s.procInitproc ≠ some s.curproc
    | .waitpid pid _ _ => pid = -1 || procLookup s pid ≠ none
    | _ => true

def State.fits (s : State) (op : Op) : Bool := (step s op).isOk && s.admits op

theorem ProcInv.fits (h : ProcInv idle s) (hfit : s.fits op = true) : TreeStep s op (s.next op) := by
  rw [State.fits, Bool.and_eq_true] at hfit
  obtain ⟨hok, hfit⟩ := hfit
  suffices hen : Enabled s op ∧ TreeAllowed s op from ⟨hen.1, hen.2, step_next s op hok⟩
  cases op with
  | intr ws => cases hfit
  | cont =>
    refine ⟨?_, trivial⟩
    unfold State.admits at hfit
    cases hf : s.cpu.frames with
    | nil =>
      rw [hf] at hfit
      cases hfit
    | cons c l =>
      refine ⟨c, l, hf, ?_⟩
      rintro ipl rfl
      rw [hf] at hfit
      cases hfit
  | call c =>
    unfold State.admits at hfit
    rw [Bool.and_eq_true, decide_eq_true_eq] at hfit
    obtain ⟨hf, hfit⟩ := hfit
    cases c with
    | cancel | kill | killAll => cases hfit
    | makeRunnable t | create p =>
      simp only [Bool.and_eq_true, decide_eq_true_eq] at hfit
      exact ⟨⟨hf, hfit.1⟩, hfit.2⟩
    | thread t p =>
      simp only [Bool.and_eq_true, decide_eq_true_eq] at hfit
      obtain ⟨⟨⟨ht, htc⟩, hp⟩, hnone⟩ := hfit
      exact ⟨⟨hf, ht, htc, fun q hq => ht (h.threads.onq q t hq), hp⟩, hnone⟩
    | exit status | waitpid pid options a => exact ⟨⟨hf, trivial⟩, by simpa [TreeAllowed] using hfit⟩
    | _ => exact ⟨⟨hf, trivial⟩, trivial⟩

def Life.move (L : Life) (op : Op) : Life := L.next op (L.st.next op)

theorem life_run_of {ops : List Op} (hp : Passes (fun L op => L.st.fits op) Life.move (Life.boot p t ints) ops) :
    Run LifeStep (Life.boot p t ints) ops (ops.foldl Life.move (Life.boot p t ints)) :=
  Run.of_passes (I := fun L => ProcInv p L.st) (procInv_boot p t ints) (fun _ _ _ hL hs => hL.step hs.1)
    (fun _ _ hL hfit => ⟨hL.fits hfit, rfl⟩) ops hp

/-- Init creates a process and waits; the process exits. -/
def reapOps (pid : ℤ) (status : ℤ) : List Op :=
  [.call (.create 101), .call (.thread 1 101), .call (.makeRunnable 1), .call .switch, .cont, .cont,
    .call (.create 102), .call (.thread 2 102), .call (.makeRunnable 2), .call (.waitpid pid 0 5), .cont, .cont,
    .call (.setCwd 7), .call (.exit status), .cont]

/-- The process is disposed of. -/
theorem process_tree_kept_reaped : ∃ ops L, Run LifeStep (Life.boot 100 0 fun _ => 0) ops L ∧
    L.made 102 = 1 ∧ L.reaped 102 = 1 ∧ L.st.procObjs = [101, 100] ∧ TreeOk 100 L := by
  have hrun : Run LifeStep (Life.boot 100 0 fun _ => 0) (reapOps (-1) 3 ++ [.cont]) _ :=
    life_run_of (by decide +kernel)
  exact ⟨_, _, hrun, by decide +kernel, by decide +kernel, by decide +kernel, process_tree_kept hrun⟩

end Weenix.Sched
