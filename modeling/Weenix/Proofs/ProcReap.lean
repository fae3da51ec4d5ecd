import Weenix.Proofs.ProcSpare
import Weenix.Proofs.ProcSys

/-! What `do_waitpid` owes its caller. It disposes of the last child on the list when it is
called with a pid, and so of the child with the pid only if that one is the last; and it
stores no status. -/

namespace Weenix.Sched

open Runs Exec Function List

variable {s s' : State} {op : Op} {c : Code} {l : List Code} {t x p q idle : ℕ} {ints : ℕ → ℤ}
  {pid : ℤ} {st : StatusPtr}

/-! ### The child that is disposed of -/

/-- The child `c` of the caller, and nothing else, is disposed of. -/
structure RightChild (s s' : State) (c : ℕ) : Prop where
  exited : (s.proc c).pState = .dead
  procObjs : c ∈ s.procObjs ∧ s'.procObjs = s.procObjs.erase c
  procList : s'.procList = s.procList.erase c
  children : (s'.proc s.curproc).pChildren = (s.proc s.curproc).pChildren.erase c
  threads : ∀ t ∈ (s.proc c).pThreads, t ∈ s.thrObjs ∧ t ∉ s'.thrObjs
  /-- another child is as it was, and so are its threads, and it can still be waited for -/
  others : ∀ q ∈ (s.proc s.curproc).pChildren, q ≠ c → s'.proc q = s.proc q ∧
    q ∈ (s'.proc s.curproc).pChildren ∧ q ∈ s'.procList ∧ q ∈ s'.procObjs ∧
    ∀ t ∈ (s.proc q).pThreads, t ∈ s'.thrObjs ∧ s'.thr t = s.thr t

theorem ProcInv.rightChild (h : ProcInv idle s) (hr : Reapable s p t) (v : ℤ) (cpu : Context) :
    RightChild s { s.reaped p t with cpu := cpu, ret := v } p := by
  have hcur := h.curproc.1
  have hobj : ∀ q ∈ (s.proc s.curproc).pChildren, q ∈ s.procObjs := fun q hq => (h.tree.child _ hcur q hq).1
  refine ⟨hr.dead, ⟨hr.procObj, rfl⟩, rfl, rfl, fun u hu => ?_, fun q hq hne => ⟨?_, ?_, ?_, ?_, fun u hu => ?_⟩⟩
  · obtain rfl : u = t := by simpa [hr.thread] using hu
    exact ⟨hr.thrObj, h.threads.objs.not_mem_erase⟩
  · -- another child is not the caller, so it is not the parent of `p`
    have hqc : q ≠ s.curproc := by
      intro he
      have hpp := (h.tree.child _ hcur q hq).2.2
      rw [he] at hpp
      exact h.tree.strict _ hcur hpp
    have hnot := h.tree.erase_child hcur (hobj q hq) hr.child hqc
    simp [State.reaped, hne, hnot]
  · exact (h.tree.nodup _ hcur).mem_erase_iff.2 ⟨hne, hq⟩
  · exact h.tree.list.mem_erase_iff.2 ⟨hne, (h.tree.same q).2 (hobj q hq)⟩
  · exact h.tree.objs.mem_erase_iff.2 ⟨hne, hobj q hq⟩
  · obtain ⟨hu1, hu2⟩ := h.threads.own q (hobj q hq) u hu
    refine ⟨h.threads.objs.mem_erase_iff.2 ⟨?_, hu1⟩, rfl⟩
    rintro rfl
    exact hne (hu2.symm.trans hr.ktProc)

/-- One process goes, so it is the right one only if it is the one asked for. -/
theorem ProcInv.rightChild_iff (h : ProcInv idle s) (hr : Reapable s p t) (v : ℤ) (cpu : Context) :
    RightChild s { s.reaped p t with cpu := cpu, ret := v } q ↔ p = q := by
  constructor
  · intro hright
    by_contra hne
    have hmem : q ∈ s.procObjs.erase p := h.tree.objs.mem_erase_iff.2 ⟨Ne.symm hne, hright.procObjs.1⟩
    have hgone : q ∉ s.procObjs.erase q := h.tree.objs.not_mem_erase
    exact hgone (hright.procObjs.2 ▸ hmem)
  · rintro rfl
    exact h.rightChild hr v cpu

/-- What a thread has asked for: a pid, the child with that pid, and whether the child was the
last on the list of children at the time. -/
structure Ask where
  pid : ℤ
  child : ℕ
  last : Bool
  deriving DecidableEq

structure Watch where
  st : State
  asked : ℕ → Option Ask

namespace Watch

def boot (p t : ℕ) (ints : ℕ → ℤ) : Watch := ⟨bootState p t ints, fun _ => none⟩

def ask (s : State) (pid : ℤ) : Option Ask :=
  (procLookup s pid).map fun c => ⟨pid, c, (s.proc s.curproc).pChildren.getLast? = some c⟩

def next (W : Watch) (op : Op) (s' : State) : Watch where
  st := s'
  asked := match op with
    | .call (.waitpid pid _ _) => update W.asked W.st.curthr (ask W.st pid)
    | _ => W.asked

def Returns (W : Watch) (op : Op) (s' : State) (a : Ask) : Prop :=
  ((∃ options status, op = .call (.waitpid a.pid options status) ∧ ask W.st a.pid = some a) ∨
    (op = .cont ∧ W.asked W.st.curthr = some a ∧ ∃ p st l, W.st.cpu.frames = .waitPid a.pid p st :: l)) ∧
  s'.cpu.frames = [] ∧ s'.ret = a.pid

end Watch

def WatchStep (W : Watch) (op : Op) (W' : Watch) : Prop := TreeStep W.st op W'.st ∧ W' = W.next op W'.st

/-- A thread that waits with a pid waits for the last child there was when it asked. -/
def Watched (W : Watch) : Prop :=
  ∀ x ∈ W.st.thrObjs, ∀ pid p st, .waitPid pid p st ∈ point W.st x →
    ∃ a, W.asked x = some a ∧ a.pid = pid ∧ (a.last = true ↔ p = a.child)

/-- After a round of `do_waitpid` a thread waits with a pid if it did before, or if this was the
round. -/
theorem Waited.waits (h : Waited c s s') (hx : x ∈ s'.thrObjs) (hm : .waitPid pid p st ∈ point s' x) :
    x ∈ s.thrObjs ∧ (.waitPid pid p st ∈ point s x ∨ x = s.curthr ∧ c = .waitPid pid p st) := by
  cases h with
  | error v => exact ⟨hx, .inl hm⟩
  | reap q t v => exact ⟨mem_of_mem_erase hx, .inl hm⟩
  | sleep =>
    have hcalls : Calls (fun x => x = s.curthr) s ((s.push c).sleep (.wait s.curproc) .sleep) :=
      (Calls.push s c).trans (.sleep (by rfl) _ _)
    rw [hcalls.point_eq] at hm
    refine ⟨hx, ?_⟩
    split_ifs at hm with hxc
    · change _ ∈ Code.schedSwitch :: c :: s.cpu.frames at hm
      rw [mem_cons, mem_cons] at hm
      rcases hm with hm | hm | hm
      · cases hm
      · exact .inr ⟨hxc, hm.symm⟩
      left
      rw [hxc, point_cur]
      exact hm
    · exact .inl hm

theorem ProcInv.cont_waits (h : ProcInv idle s) (hf : s.cpu.frames = c :: l) (hi : ∀ ipl, c ≠ .intrWait ipl)
    {b : Bool} (hs : exec s.pop c = .ok (b, s')) (hx : x ∈ s'.thrObjs) (hm : .waitPid pid p st ∈ point s' x) :
    x ∈ s.thrObjs ∧ .waitPid pid p st ∈ point s x := by
  have hpop : ∀ x, .waitPid pid p st ∈ point s.pop x → .waitPid pid p st ∈ point s x := by
    intro x hx
    rw [point_pop] at hx
    split_ifs at hx
    · exact mem_of_mem_tail hx
    · exact hx
  have hcur : c ∈ point s s.curthr := by
    rw [point_cur, hf]
    exact mem_cons_self
  rcases h.exec_cases hf hi hs with ⟨rfl, -, rfl⟩ | ⟨t, k, -, -, rfl⟩ | ⟨-, -, hwait | ⟨ipl, v, rfl⟩⟩
  · refine ⟨hx, hpop x ?_⟩
    rw [point_push] at hm
    split_ifs at hm
    · exact (mem_cons.1 hm).resolve_left Code.noConfusion
    · exact hm
  · have hcalls : Calls (fun _ => False) s (s.pop.takeRunq k) := (Calls.pop s).trans (takeRunq_calls k _)
    have hobj : (Sched.switched s.pop t k).thrObjs = s.thrObjs := hcalls.thrObjs
    rw [point_switched hf] at hm
    refine ⟨hobj ▸ hx, ?_⟩
    split_ifs at hm with hxc
    · rw [hxc, point_cur, hf]
      exact mem_cons_of_mem _ hm
    · exact hm
  · obtain ⟨hxo, hw | ⟨rfl, rfl⟩⟩ := hwait.waits hx hm
    · exact ⟨hxo, hpop x hw⟩
    · exact ⟨hxo, hcur⟩
  · exact ⟨hx, hpop x hm⟩

/-- A thread comes to wait with a pid by calling `do_waitpid`. -/
theorem ProcInv.step_waits (h : ProcInv idle s) (hs : TreeStep s op s') (hx : x ∈ s'.thrObjs)
    (hm : .waitPid pid p st ∈ point s' x) : (x ∈ s.thrObjs ∧ .waitPid pid p st ∈ point s x) ∨
    x = s.curthr ∧ ∃ o a c, op = .call (.waitpid pid o a) ∧ procLookup s pid = some c ∧
      (s.proc s.curproc).pChildren.getLast? = some p := by
  obtain ⟨hen, ha, hs⟩ := hs
  cases op with
  | intr ws =>
    left
    rcases step_intr hen hs with ⟨s1, ipl, l, hf, h1, heff, rfl⟩ | ⟨hf, h1⟩
    · have hcalls : Calls (fun _ => False) s s1 := interrupt_calls ws h1
      have hcpu := heff.cpu fun _ => id
      refine ⟨hcalls.thrObjs ▸ hx, ?_⟩
      change _ ∈ point (s1.pop.push .schedSwitch) x at hm
      rw [point_push, point_pop, hcalls.point_eq] at hm
      change _ ∈ (if x = s1.curthr then _ else _) at hm
      rw [hcalls.curthr] at hm
      split_ifs at hm with hxc
      · rw [hxc, point_cur]
        exact mem_of_mem_tail (hcpu ▸ (mem_cons.1 hm).resolve_left Code.noConfusion)
      · exact hm
    · have hcalls : Calls (fun _ => False) s s' := interrupt_calls ws h1
      have heff : Effects (handler True) s s' := handler_effects h1 (.inl trivial)
      rw [hcalls.point_eq, heff.cpu fun _ => id] at hm
      refine ⟨hcalls.thrObjs ▸ hx, ?_⟩
      split_ifs at hm with hxc
      · rw [hxc, point_cur]
        exact hm
      · exact hm
  | cont =>
    obtain ⟨c, l, b, hf, hi, h1⟩ := step_cont hen hs
    exact .inl (h.cont_waits hf hi h1 hx hm)
  | call c =>
    change Sched.call s c = .ok s' at hs
    cases c with
    | create q =>
      obtain ⟨pid, -, -, -, -, -, hc⟩ := h.tree.procCreate_spec hen.2 h.curproc.1 ha hs
      obtain ⟨-, hobjs, hpoint⟩ := hc.threads
      exact .inl ⟨hobjs ▸ hx, hpoint ▸ hm⟩
    | thread t q =>
      cases hs
      rw [kthreadCreate_point hen.2.2.1] at hm
      split_ifs at hm with hxt
      · simp at hm
      · exact .inl ⟨(mem_cons.1 hx).resolve_left hxt, hm⟩
    | exit status =>
      obtain ⟨u, -, hdied, hcalls, hpoint⟩ := h.exit_spec ha hs
      rw [hpoint, hen.1] at hm
      split_ifs at hm
      · simp at hm
      · exact .inl ⟨hdied.thrObjs ▸ hcalls.thrObjs ▸ hx, hm⟩
    | waitpid pid' options a =>
      have hw := h.stable.wchan (not_switching_nil hen.1)
      obtain ⟨s1, c, h1, h2, hround⟩ := h.doWaitpid_waited hw ha options a
      obtain rfl := Except.ok.inj (hs.symm.trans h1)
      obtain ⟨hxo, hm | ⟨hxc, rfl⟩⟩ := h2.waits hx hm
      · exact .inl ⟨hxo, hm⟩
      rcases hround with ⟨he, -⟩ | ⟨p', q, hp, hq, he⟩
      · cases he
      obtain ⟨rfl, rfl, -⟩ := Code.waitPid.inj he
      exact .inr ⟨hxc, options, a, q, rfl, hq, hp⟩
    | setCwd | openFile =>
      cases hs
      exact .inl ⟨hx, hm⟩
    | cancel | kill | killAll => exact ha.elim
    | _ =>
      obtain ⟨hcalls, hrest⟩ := quiet_calls (by trivial) hen.1 hs
      rw [hcalls.point_eq] at hm
      split_ifs at hm with hxc
      · exact absurd hm (hrest.no_wait _ _ _)
      · exact .inl ⟨hcalls.thrObjs ▸ hx, hm⟩

theorem Watched.step {W W' : Watch} (hw : Watched W) (h : ProcInv idle W.st) (hs : WatchStep W op W') :
    Watched W' := by
  obtain ⟨hs, he⟩ := hs
  intro x hx pid p st hm
  -- the question of a thread that is already waiting stands
  have hold : ∀ x, .waitPid pid p st ∈ point W.st x → W'.asked x = W.asked x := by
    intro x hx
    rw [he]
    change (match op with
      | .call (.waitpid pid _ _) => update W.asked W.st.curthr (Watch.ask W.st pid)
      | _ => W.asked) x = W.asked x
    split
    · refine update_of_ne ?_ _ _
      rintro rfl
      rw [point_cur, hs.1.1] at hx
      cases hx
    · rfl
  rcases h.step_waits hs hx hm with ⟨hxo, hxm⟩ | ⟨rfl, o, a, c, rfl, hc, hl⟩
  · rw [hold x hxm]
    exact hw x hxo pid p st hxm
  refine ⟨⟨pid, c, (W.st.proc W.st.curproc).pChildren.getLast? = some c⟩, ?_, rfl, ?_⟩
  · rw [he]
    change update W.asked W.st.curthr (Watch.ask W.st pid) W.st.curthr = _
    rw [update_self, Watch.ask, hc]
    rfl
  · rw [hl]
    simp

theorem watch_run {ops : List Op} {W : Watch} (h : Run WatchStep (Watch.boot p t ints) ops W) :
    ProcInv p W.st ∧ Watched W := by
  refine h.invariant (I := fun W => ProcInv p W.st ∧ Watched W) ⟨procInv_boot p t ints, fun x hx pid q st hm => ?_⟩ ?_
  · obtain rfl := mem_singleton.1 hx
    rw [show point (Watch.boot p x ints).st x = [] from if_pos rfl] at hm
    cases hm
  · rintro W op W' ⟨hinv, hw⟩ hs
    exact ⟨hinv.step hs.1, hw.step hinv hs⟩

/-- A round for `p` that returns a pid disposes of `p`. -/
theorem Waited.returns (h : Waited (.waitPid pid p st) s s') (hf : s'.cpu.frames = []) (hret : s'.ret = pid)
    (hpos : 0 < pid) : ∃ t v, Reapable s p t ∧ s' = { s.reaped p t with ret := v } := by
  cases h with
  | error v hv =>
    change v = pid at hret
    omega
  | sleep => cases hf
  | reap q t v hr hv =>
    obtain ⟨rfl, -⟩ := hv
    exact ⟨t, v, hr, rfl⟩

/-- A return from `do_waitpid` with a positive pid disposes of one process: the last child
that the caller had when it called. -/
theorem returns_reaps {W : Watch} {a : Ask} (h : ProcInv idle W.st) (hw : Watched W)
    (hs : TreeStep W.st op s') (hr : W.Returns op s' a) (hpos : 0 < a.pid) :
    ∃ p t v cpu, Reapable W.st p t ∧ s' = { W.st.reaped p t with cpu := cpu, ret := v } ∧
      (a.last = true ↔ p = a.child) := by
  obtain ⟨hen, ha, hs⟩ := hs
  obtain ⟨⟨options, status, rfl, hask⟩ | ⟨rfl, hask, p, st, l, hfr⟩, hf, hret⟩ := hr
  · have hwchan := h.stable.wchan (not_switching_nil hen.1)
    obtain ⟨s1, c, h1, h2, hround⟩ := h.doWaitpid_waited hwchan ha options status
    obtain rfl := Except.ok.inj (hs.symm.trans h1)
    rcases hround with ⟨-, he | he⟩ | ⟨p, q, hp, hq, rfl⟩
    · omega
    · rw [hret, ECHILD] at he
      omega
    obtain ⟨t, v, hreap, rfl⟩ := h2.returns hf hret hpos
    rw [Watch.ask, hq] at hask
    refine ⟨p, t, v, W.st.cpu, hreap, rfl, ?_⟩
    rw [← Option.some.inj hask, hp]
    simp
  obtain rfl := h.only_call hfr trivial
  have hchild := h.waitPid_child hfr
  obtain ⟨s1, h1, h2⟩ := (h.pop hfr trivial).waitPid_waited (h.pop_wchan hfr trivial) hchild a.pid st
  rw [step, hfr] at hs
  obtain ⟨⟨b, s2⟩, h3, rfl⟩ := ok_of_map hs
  obtain ⟨rfl, h4⟩ := exec_ok h3
  obtain rfl := Except.ok.inj (h1.symm.trans h4)
  obtain ⟨t, v, hreap, rfl⟩ := h2.returns hf hret hpos
  obtain ⟨a', ha', -, hlast⟩ := hw _ h.threads.cur a.pid p st (by
    rw [point_cur, hfr]
    exact mem_cons_self)
  obtain rfl := Option.some.inj (hask.symm.trans ha')
  exact ⟨p, t, v, W.st.pop.cpu, ⟨hreap.child, hreap.dead, hreap.thread, hreap.exited, hreap.thrObj, hreap.ktProc,
    hreap.childLink, hreap.listLink, hreap.children, hreap.procObj⟩, rfl, hlast⟩

/-- `do_waitpid(pid)` disposes of the child with that pid, of it alone and once it has exited,
exactly when the child is the last on the caller's list at the time of the call. -/
theorem waitpid_right_iff_last {ops : List Op} {W : Watch} {a : Ask}
    (hrun : Run WatchStep (Watch.boot p t ints) ops W) (hs : TreeStep W.st op s') (hr : W.Returns op s' a)
    (hpos : 0 < a.pid) : RightChild W.st s' a.child ↔ a.last = true := by
  obtain ⟨hinv, hw⟩ := watch_run hrun
  obtain ⟨q, u, v, cpu, hreap, rfl, hlast⟩ := returns_reaps hinv hw hs hr hpos
  rw [hinv.rightChild_iff hreap, hlast]

def Watch.move (W : Watch) (op : Op) : Watch := W.next op (W.st.next op)

theorem watch_run_of {ops : List Op}
    (hp : Passes (fun W op => W.st.fits op) Watch.move (Watch.boot p t ints) ops) :
    Run WatchStep (Watch.boot p t ints) ops (ops.foldl Watch.move (Watch.boot p t ints)) :=
  Run.of_passes (I := fun W => ProcInv p W.st) (procInv_boot p t ints) (fun _ _ _ hW hs => hW.step hs.1)
    (fun _ _ hW hfit => ⟨hW.fits hfit, rfl⟩) ops hp

/-- Init has two children and waits for one of them by its pid; the second exits, the first does not. -/
def childOps (pid : ℤ) : List Op :=
  [.call (.create 101), .call (.thread 1 101), .call (.makeRunnable 1), .call .switch, .cont, .cont,
    .call (.setCwd 7), .call (.create 102), .call (.create 103), .call (.thread 3 103), .call (.makeRunnable 3),
    .call (.waitpid pid 0 5), .cont, .cont, .call (.exit 3), .cont]

/-- The second child is waited for: it is disposed of, and the first one stays. -/
theorem waitpid_right_iff_last_second : ∃ ops W a, Run WatchStep (Watch.boot 100 0 fun _ => 0) ops W ∧
    W.Returns .cont (W.st.next .cont) a ∧ a.pid = 3 ∧ a.child = 103 ∧
    (W.st.proc W.st.curproc).pChildren = [102, 103] ∧ RightChild W.st (W.st.next .cont) 103 := by
  have hrun : Run WatchStep (Watch.boot 100 0 fun _ => 0) (childOps 3) _ := watch_run_of (by decide +kernel)
  let W := (childOps 3).foldl Watch.move (Watch.boot 100 0 fun _ => 0)
  have hret : W.Returns .cont (W.st.next .cont) ⟨3, 103, true⟩ :=
    ⟨.inr ⟨rfl, by decide +kernel, 103, .out 5, [], by decide +kernel⟩, by decide +kernel, by decide +kernel⟩
  refine ⟨_, W, ⟨3, 103, true⟩, hrun, hret, rfl, rfl, by decide +kernel, ?_⟩
  exact (waitpid_right_iff_last hrun ((watch_run hrun).1.fits (by decide +kernel)) hret (by decide)).2 rfl

/-- `do_waitpid` disposes of the second child and returns the pid of the first. -/
theorem waitpid_takes_other_child : ∃ ops W a, Run WatchStep (Watch.boot 100 0 fun _ => 0) ops W ∧
    W.Returns .cont (W.st.next .cont) a ∧ a.pid = 2 ∧ a.child = 102 ∧ (W.st.proc 102).pPid = 2 ∧
    (W.st.proc W.st.curproc).pChildren = [102, 103] ∧ (W.st.proc 102).pState = .running ∧
    (W.st.next .cont).ret = 2 ∧ (W.st.next .cont).procObjs = [102, 101, 100] ∧
    ¬ RightChild W.st (W.st.next .cont) 102 := by
  have hrun : Run WatchStep (Watch.boot 100 0 fun _ => 0) (childOps 2) _ := watch_run_of (by decide +kernel)
  refine ⟨_, _, ⟨2, 102, false⟩, hrun, ⟨.inr ⟨rfl, by decide +kernel, 103, .out 5, [], by decide +kernel⟩,
    by decide +kernel, by decide +kernel⟩, rfl, rfl, by decide +kernel, by decide +kernel, by decide +kernel,
    by decide +kernel, by decide +kernel, fun hr => ?_⟩
  exact absurd hr.exited (by decide +kernel)

/-! ### The status -/

/-- What `do_waitpid` does stores no integer. -/
theorem ints_kernel : Kernel (fun _ => True) (fun _ => True) fun s s' => s'.ints = s.ints where
  refl _ := rfl
  trans h1 h2 := h2.trans h1
  wake _ _ _ _ _ := rfl
  reset _ _ _ _ := rfl
  wait _ := trivial
  relink h := h.spares.ints
  own _ _ _ := rfl
  retry _ _ := rfl
  ret _ _ := rfl

theorem SleepsOn.ints_eq (h : SleepsOn s s') : s'.ints = s.ints := by
  obtain ⟨c, -, -, rfl⟩ := h
  rfl

/-- The operation is a call of `do_waitpid` with a pointer to the integer `a`, or goes on with
one. -/
def StatusArg (s : State) (op : Op) (a : ℕ) : Prop :=
  (∃ pid options, op = .call (.waitpid pid options a)) ∨
  op = .cont ∧ ∃ l, s.cpu.frames = .waitAny (.out a) :: l ∨ ∃ pid p, s.cpu.frames = .waitPid pid p (.out a) :: l

/-- `do_waitpid` stores nothing. -/
theorem StatusArg.ints_eq {a : ℕ} (h : StatusArg s op a) (hs : step s op = .ok s') : s'.ints = s.ints := by
  rcases h with ⟨pid, options, rfl⟩ | ⟨rfl, l, hf | ⟨pid, p, hf⟩⟩
  · exact (ints_kernel.doWaitpid (fun _ _ => trivial) hs).elim id SleepsOn.ints_eq
  · rw [step, hf] at hs
    obtain ⟨⟨b, s1⟩, h1, rfl⟩ := ok_of_map hs
    obtain ⟨rfl, h2⟩ := exec_ok h1
    exact ((ints_kernel.waitAny (fun _ _ => trivial) h2).elim id SleepsOn.ints_eq :)
  rw [step, hf] at hs
  obtain ⟨⟨b, s1⟩, h1, rfl⟩ := ok_of_map hs
  obtain ⟨rfl, h2⟩ := exec_ok h1
  exact ((ints_kernel.waitPid (fun _ _ => trivial) h2).elim id SleepsOn.ints_eq :)

/-- A state, with the statuses that each process has been ended with: by its own `do_exit`, or
by a `proc_kill` of another. -/
structure Fate where
  st : State
  ended : ℕ → List ℤ

namespace Fate

def boot (p t : ℕ) (ints : ℕ → ℤ) : Fate := ⟨bootState p t ints, fun _ => []⟩

def ends (s : State) : Op → Option (ℕ × ℤ)
  | .call (.exit status) => some (s.curproc, status)
  | .call (.kill p status) => some (p, status)
  | .cont => match s.cpu.frames with
    | .doExit status :: _ => some (s.curproc, status)
    | _ => none
  | _ => none

def next (F : Fate) (op : Op) (s' : State) : Fate where
  st := s'
  ended p := (if op.created = some p then [] else F.ended p) ++
    match ends F.st op with
    | some (q, status) => if q = p then [status] else []
    | none => []

end Fate

/-- Any step: processes may be killed, and may have several threads. -/
def FateStep (F : Fate) (op : Op) (F' : Fate) : Prop :=
  Enabled F.st op ∧ step F.st op = .ok F'.st ∧ F' = F.next op F'.st

/-- In a run from the boot, `do_waitpid` with a pointer to `a` disposes of the process `q`, which
has been ended with the status `v`. -/
structure Disposal (F : Fate) (op : Op) (s' : State) (q a : ℕ) (v : ℤ) : Prop where
  run : ∃ p t ints ops, Run FateStep (Fate.boot p t ints) ops F
  enabled : Enabled F.st op
  step : step F.st op = .ok s'
  arg : StatusArg F.st op a
  gone : q ∈ F.st.procObjs ∧ q ∉ s'.procObjs
  ended : v ∈ F.ended q

/-- The integer that the status argument points to holds the status afterwards exactly if it
held it before. -/
theorem status_stored_iff_held {F : Fate} {a : ℕ} {v : ℤ} (h : Disposal F op s' q a v) :
    s'.ints a = v ↔ F.st.ints a = v := by
  rw [h.arg.ints_eq h.step]

def Fate.move (F : Fate) (op : Op) : Fate := F.next op (F.st.next op)

theorem fate_run_of (p t : ℕ) (ints : ℕ → ℤ) (ops : List Op)
    (hp : Passes (fun F op => F.st.fits op) Fate.move (Fate.boot p t ints) ops) :
    Run FateStep (Fate.boot p t ints) ops (ops.foldl Fate.move (Fate.boot p t ints)) ∧
      ProcInv p (ops.foldl Fate.move (Fate.boot p t ints)).st := by
  have hrun : Run (fun (F : Fate) op F' => TreeStep F.st op F'.st ∧ F' = F.next op F'.st) (Fate.boot p t ints) ops
      (ops.foldl Fate.move (Fate.boot p t ints)) :=
    Run.of_passes (I := fun F => ProcInv p F.st) (procInv_boot p t ints) (fun _ _ _ hF hs => hF.step hs.1)
      (fun _ _ hF hfit => ⟨hF.fits hfit, rfl⟩) ops hp
  exact ⟨hrun.mono fun _ _ _ hs => ⟨hs.1.1, hs.1.2.2, hs.2⟩,
    hrun.invariant (I := fun F => ProcInv p F.st) (procInv_boot p t ints) fun _ _ _ hF hs => hF.step hs.1⟩

/-- Init waits for its child, which has exited with the status. -/
def Fate.exited (pid status : ℤ) : Fate := (reapOps pid status).foldl Fate.move (Fate.boot 100 0 fun _ => 0)

theorem status_stored_iff_held_zero : Disposal (Fate.exited 2 0) .cont ((Fate.exited 2 0).st.next .cont) 102 5 0 ∧
    ((Fate.exited 2 0).st.next .cont).ints 5 = 0 := by
  obtain ⟨hrun, hinv⟩ := fate_run_of 100 0 (fun _ => 0) (reapOps 2 0) (by decide +kernel)
  have hstep : TreeStep (Fate.exited 2 0).st .cont _ := hinv.fits (by decide +kernel)
  have h : Disposal (Fate.exited 2 0) .cont ((Fate.exited 2 0).st.next .cont) 102 5 0 :=
    ⟨⟨100, 0, _, _, hrun⟩, hstep.1, hstep.2.2, .inr ⟨rfl, [], .inr ⟨2, 102, by decide +kernel⟩⟩,
      by decide +kernel, by decide +kernel⟩
  exact ⟨h, (status_stored_iff_held h).2 (by decide +kernel)⟩

/-- The child has exited with 7. Whether init waits for any child or for this one, its integer
is still 0 when `do_waitpid` has returned. -/
theorem status_not_stored : (Disposal (Fate.exited (-1) 7) .cont ((Fate.exited (-1) 7).st.next .cont) 102 5 7 ∧
      ((Fate.exited (-1) 7).st.next .cont).ret = 2 ∧ ((Fate.exited (-1) 7).st.next .cont).ints 5 = 0) ∧
    Disposal (Fate.exited 2 7) .cont ((Fate.exited 2 7).st.next .cont) 102 5 7 ∧
      ((Fate.exited 2 7).st.next .cont).ret = 2 ∧ ((Fate.exited 2 7).st.next .cont).ints 5 = 0 := by
  obtain ⟨hrun, hinv⟩ := fate_run_of 100 0 (fun _ => 0) (reapOps (-1) 7) (by decide +kernel)
  have hstep : TreeStep (Fate.exited (-1) 7).st .cont _ := hinv.fits (by decide +kernel)
  obtain ⟨hrun₂, hinv₂⟩ := fate_run_of 100 0 (fun _ => 0) (reapOps 2 7) (by decide +kernel)
  have hstep₂ : TreeStep (Fate.exited 2 7).st .cont _ := hinv₂.fits (by decide +kernel)
  refine ⟨⟨⟨⟨100, 0, _, _, hrun⟩, hstep.1, hstep.2.2, .inr ⟨rfl, [], .inl ?_⟩, ?_, ?_⟩, ?_, ?_⟩,
    ⟨⟨100, 0, _, _, hrun₂⟩, hstep₂.1, hstep₂.2.2, .inr ⟨rfl, [], .inr ⟨2, 102, ?_⟩⟩, ?_, ?_⟩, ?_, ?_⟩
  all_goals decide +kernel

end Weenix.Sched
