import Weenix.Proofs.ProcLeave

/-! What `proc_kill_all` does to the processes it kills. It marks them dead and their threads
exited, and that is all `proc_cleanup` would have left to see: their descriptors stay open,
their references to the current directory are kept, their children stay theirs, and a parent
that is not killed sleeps on. -/

namespace Weenix.Sched

open Runs Function List

variable {s s' : State} {op : Op} {x p q i idle : ℕ}

def doomed (s : State) (p : ℕ) : Bool :=
  (s.proc p).pPid ≠ PID_INIT ∧ (s.proc p).pPid ≠ PID_IDLE ∧
    (s.proc p).pPproc.any fun q => (s.proc q).pPid ≠ PID_IDLE

def Code.awaits : Code → ℕ → Bool
  | .waitAny _, _ => true
  | .waitPid _ q _, p => q = p
  | _, _ => false

/-- What a thread that has just gone to sleep waits for. -/
def State.goal (s : State) (p : ℕ) : Bool :=
  match s.cpu.frames with
  | .schedSwitch :: c :: _ => c.awaits p
  | _ => false

/-- The step has put the running thread `x` on a queue. -/
def queuedSelf (s s' : State) (x : ℕ) : Bool :=
  x = s.curthr ∧ s'.curthr = x ∧ (s.thr x).ktWchan = none ∧ (s'.thr x).ktWchan ≠ none

/-- The kernel with what its data do not show: which processes `proc_kill_all` has killed and
nobody has reaped since, which hold a reference to their current directory, and for which
processes a thread went to sleep in `do_waitpid`. -/
structure Halt where
  st : State
  killed : List ℕ
  held : ℕ → Bool
  awaits : ℕ → ℕ → Bool

namespace Halt

def boot (p t : ℕ) (ints : ℕ → ℤ) : Halt := ⟨bootState p t ints, [], fun _ => false, fun _ _ => false⟩

/-- `vref` is called in `proc_create` and when the directory is set, `vput` in `proc_cleanup`,
which marks the process dead. -/
def holds (h : Halt) (op : Op) (s' : State) (p : ℕ) : Bool :=
  match op with
  | .call (.create q) => if p = q then (s'.proc p).pCwd.isSome else h.held p
  | .call (.setCwd _) => p = h.st.curproc || h.held p
  | .call .killAll => h.held p
  | _ => h.held p && !((h.st.proc p).pState ≠ .dead && (s'.proc p).pState = .dead)

def next (h : Halt) (op : Op) (s' : State) : Halt where
  st := s'
  killed := h.killed.filter (· ∈ s'.procObjs)
  held := h.holds op s'
  awaits x p := if queuedSelf h.st s' x then s'.goal p else h.awaits x p

def killAll (h : Halt) (s' : State) : Halt :=
  { h with st := s', killed := h.st.procList.filter (doomed h.st) }

/-- What `proc_cleanup` would have seen to. -/
structure Cleaned (h : Halt) (p : ℕ) : Prop where
  files : ∀ f ∈ (h.st.proc p).pFiles, f = none
  cwd : h.held p = false
  children : (h.st.proc p).pChildren = []
  parent : ∀ q, ParentOf h.st q p → ∀ x ∈ (h.st.proc q).pThreads, Asleep h.st x q → h.awaits x p = false

def Clean (h : Halt) : Prop := ∀ p ∈ h.killed, h.Cleaned p

/-- The thread will not be left asleep: it is killed as well, or it is the thread of init that
goes on. -/
def Spared (s : State) (x : ℕ) : Prop :=
  (∃ r ∈ s.procList, doomed s r ∧ x ∈ (s.proc r).pThreads) ∨
    x ≠ s.curthr ∧ ∃ i, s.procInitproc = some i ∧ (s.proc i).pThreads.getLast? = some x

/-- The process went through `proc_cleanup` before the call, as far as there was anything to see to. -/
structure Ready (h : Halt) (p : ℕ) : Prop where
  files : ∀ f ∈ (h.st.proc p).pFiles, f = none
  cwd : h.held p = false
  children : (h.st.proc p).pChildren = []
  parent : ∀ q, ParentOf h.st q p → ∀ x ∈ (h.st.proc q).pThreads, Asleep h.st x q → h.awaits x p = true → Spared h.st x

/-- A step made by no thread of a killed process. -/
def LaterStep (h : Halt) (op : Op) (h' : Halt) : Prop :=
  Enabled h.st op ∧ step h.st op = .ok h'.st ∧ h' = h.next op h'.st ∧ h.st.curproc ∉ h.killed

/-- When a step may give a killed process to init, no thread of init sleeps in `do_waitpid` for it. -/
def Heeds (h : Halt) (op : Op) : Prop :=
  ∀ p ∈ h.killed, op.Passes h.st p → ∀ i, h.st.procInitproc = some i → ∀ x ∈ (h.st.proc i).pThreads,
    Asleep h.st x i → h.awaits x p = false

/-- What a killed process has once and for all. -/
def Gone (h : Halt) : Prop :=
  ∀ p ∈ h.killed, p ∈ h.st.procObjs ∧ (h.st.proc p).pState = .dead ∧ h.st.procInitproc ≠ some p

end Halt

/-! ### The call -/

def State.slain (s : State) (p : ℕ) : State :=
  ((s.proc p).pThreads.foldl (fun s t => s.setState t .exited) s).setProc p fun q => { q with pState := .dead }

theorem foldl_exited (ts : List ℕ) : ∀ s : State, ∃ thr : ℕ → Kthread,
    ts.foldl (fun s t => s.setState t .exited) s = { s with thr := thr } ∧
      ∀ x, thr x = if x ∈ ts then { s.thr x with ktState := .exited } else s.thr x := by
  induction ts with
  | nil => exact fun s => ⟨s.thr, rfl, fun x => by simp⟩
  | cons t ts ih =>
    intro s
    obtain ⟨thr, hfold, hthr⟩ := ih (s.setState t .exited)
    refine ⟨thr, by rw [foldl_cons, hfold]; rfl, fun x => ?_⟩
    rw [hthr]
    by_cases hx : x = t
    · subst hx
      simp [State.setState, State.setThr]
    · simp [State.setState, State.setThr, hx]

theorem State.slain_eq (s : State) (p : ℕ) : ∃ thr : ℕ → Kthread,
    s.slain p = { s with thr := thr, proc := update s.proc p { s.proc p with pState := .dead } } ∧
      ∀ x, thr x = if x ∈ (s.proc p).pThreads then { s.thr x with ktState := .exited } else s.thr x := by
  obtain ⟨thr, hfold, hthr⟩ := foldl_exited (s.proc p).pThreads s
  exact ⟨thr, by rw [State.slain, hfold]; rfl, hthr⟩

theorem State.slain_proc (s : State) (p x : ℕ) :
    (s.slain p).proc x = if x = p then { s.proc x with pState := .dead } else s.proc x := by
  obtain ⟨thr, heq, -⟩ := s.slain_eq p
  rw [heq]
  by_cases hx : x = p
  · subst hx
    simp
  · simp [hx]

theorem State.slain_thr (s : State) (p x : ℕ) :
    (s.slain p).thr x = if x ∈ (s.proc p).pThreads then { s.thr x with ktState := .exited } else s.thr x := by
  obtain ⟨thr, heq, hthr⟩ := s.slain_eq p
  rw [heq]
  exact hthr x

/-- What marking a process dead leaves. -/
structure SameTask (a b : Proc) : Prop where
  pPid : b.pPid = a.pPid
  pThreads : b.pThreads = a.pThreads
  pPproc : b.pPproc = a.pPproc

theorem State.slain_same (s : State) (p x : ℕ) : SameTask (s.proc x) ((s.slain p).proc x) := by
  rw [State.slain_proc]
  split_ifs
  · exact ⟨rfl, rfl, rfl⟩
  · exact ⟨rfl, rfl, rfl⟩

theorem doomed_slain (s : State) (p x : ℕ) : doomed (s.slain p) x = doomed s x := by
  have hpid := fun y => (s.slain_same p y).pPid
  rw [doomed, doomed, hpid, (s.slain_same p x).pPproc]
  simp only [hpid]

/-- Behind the loop of `proc_kill_all` over the processes of `l`. -/
structure Killed (l : List ℕ) (s s' : State) : Prop where
  proc : ∀ x, s'.proc x = if x ∈ l ∧ doomed s x then { s.proc x with pState := .dead } else s.proc x
  thr : ∀ x, s'.thr x = if ∃ r ∈ l, doomed s r ∧ x ∈ (s.proc r).pThreads then { s.thr x with ktState := .exited }
    else s.thr x
  rest : s' = { s with proc := s'.proc, thr := s'.thr }

/-- The first process is passed over. -/
theorem Killed.skip {l : List ℕ} (hd : doomed s p = false) (h : Killed l s s') : Killed (p :: l) s s' := by
  refine ⟨fun x => ?_, fun x => ?_, h.rest⟩
  · rw [h.proc]
    by_cases hx : x = p
    · subst hx
      simp [hd]
    · simp [hx]
  · rw [h.thr]
    simp [hd]

/-- The first process is killed, then those behind it. -/
theorem Killed.cons {l : List ℕ} (hd : doomed s p = true) (h : Killed l (s.slain p) s') : Killed (p :: l) s s' := by
  refine ⟨fun x => ?_, fun x => ?_, ?_⟩
  · rw [h.proc, doomed_slain, State.slain_proc]
    by_cases hx : x = p
    · subst hx
      simp [hd]
    · simp [hx]
  · rw [h.thr, State.slain_thr]
    simp only [doomed_slain, (State.slain_same s p _).pThreads, mem_cons, exists_eq_or_imp, hd, true_and]
    by_cases hx : x ∈ (s.proc p).pThreads
    · simp [hx]
    · simp [hx]
  · obtain ⟨thr, heq, -⟩ := s.slain_eq p
    refine h.rest.trans ?_
    rw [heq]

/-- The loop over the processes; its local variable is a thread of the init process. -/
theorem killProcs_killed : ∀ (l : List ℕ) {a a' : Option ℕ} {s s' : State}, killProcs l a s = .ok (a', s') →
    Killed l s s' ∧ ∀ t, a' = some t →
      a = some t ∨ ∃ r ∈ l, (s.proc r).pPid = PID_INIT ∧ (s.proc r).pThreads.getLast? = some t := by
  intro l
  induction l with
  | nil =>
    intro a a' s s' h
    cases h
    exact ⟨⟨fun x => by simp, fun x => by simp, rfl⟩, fun t ht => .inl ht⟩
  | cons p l ih =>
    intro a a' s s' h
    have hlocal : ∀ {b : Option ℕ}, killProcs l b s = .ok (a', s') → (∀ t, b = some t → a = some t ∨
        (s.proc p).pPid = PID_INIT ∧ (s.proc p).pThreads.getLast? = some t) → ∀ t, a' = some t →
        a = some t ∨ ∃ r ∈ p :: l, (s.proc r).pPid = PID_INIT ∧ (s.proc r).pThreads.getLast? = some t := by
      intro b hb hbt t hat
      rcases (ih hb).2 t hat with h1 | ⟨r, hr, h1⟩
      · exact (hbt t h1).imp id fun h2 => ⟨p, mem_cons_self, h2⟩
      · exact .inr ⟨r, mem_cons_of_mem p hr, h1⟩
    unfold killProcs at h
    dsimp only at h
    split_ifs at h with hpid hinit
    · split at h
      · cases h
      next q hq =>
        split_ifs at h with hidle
        · have hd : doomed s p = false := by simp [doomed, hq, hidle]
          exact ⟨(ih h).1.skip hd, hlocal h fun t ht => .inl ht⟩
        have hd : doomed s p = true := by simp [doomed, hq, hidle, hpid]
        obtain ⟨hk, hl⟩ := ih h
        refine ⟨hk.cons hd, fun t ht => (hl t ht).imp id ?_⟩
        rintro ⟨r, hr, h1, h2⟩
        have hsame := s.slain_same p r
        exact ⟨r, mem_cons_of_mem p hr, hsame.pPid.symm.trans h1, hsame.pThreads ▸ h2⟩
    · have hd : doomed s p = false := by simp [doomed, hinit]
      refine ⟨(ih h).1.skip hd, hlocal h fun t ht => ?_⟩
      rcases Option.or_eq_some_iff.1 ht with h1 | ⟨-, h1⟩
      · exact .inr ⟨hinit, h1⟩
      · exact .inl h1
    · have hd : doomed s p = false := by
        rcases not_and_or.1 hpid with h1 | h1
        · exact absurd (not_not.1 h1) hinit
        · simp [doomed, not_not.1 h1]
      exact ⟨(ih h).1.skip hd, hlocal h fun t ht => .inl ht⟩

/-- Threads that sleep on a `p_wait` sleep on, unless they are killed or go on as init. -/
theorem procKillAll_spec (ht : ProcTree idle s) (h : procKillAll s = .ok s') :
    (∀ x, s'.proc x = if x ∈ s.procList ∧ doomed s x then { s.proc x with pState := .dead } else s.proc x) ∧
      s'.procObjs = s.procObjs ∧ s'.procInitproc = s.procInitproc ∧
      ∀ x q, Asleep s' x q ↔ Asleep s x q ∧ ¬ Halt.Spared s x := by
  obtain ⟨init, s1, h1, h2⟩ := procKillAll_ok h
  obtain ⟨hk, hl⟩ := killProcs_killed _ h1
  have hcur : s1.curthr = s.curthr := by rw [hk.rest]
  -- the thread turned to is the last one of the init process
  have hinit : ∀ x, x = init ↔ ∃ i, s.procInitproc = some i ∧ (s.proc i).pThreads.getLast? = some x := by
    obtain ⟨r, hr, hpid, hlast⟩ := (hl init rfl).resolve_left (by simp)
    have hfind : s.procInitproc = some r := by
      cases hi : s.procInitproc with
      | none =>
        rw [(ht.fresh hi).1, mem_singleton] at hr
        rw [hr, ht.root.2.1] at hpid
        cases hpid
      | some i =>
        obtain ⟨hio, hipid, -⟩ := ht.init i hi
        rw [ht.pids i hio r ((ht.same r).1 hr) (hipid.trans hpid.symm)]
    intro x
    constructor
    · rintro rfl
      exact ⟨r, hfind, hlast⟩
    rintro ⟨i, hi, hx⟩
    obtain rfl := Option.some.inj (hfind.symm.trans hi)
    exact Option.some.inj (hx.symm.trans hlast)
  have hthr : ∀ x, (s'.thr x).ktState = (s1.thr x).ktState ∧
      (s'.thr x).ktWchan = if x = init ∧ x ≠ s.curthr then none else (s1.thr x).ktWchan := by
    intro x
    rcases h2 with ⟨hne, rfl⟩ | ⟨rfl, rfl⟩
    · rw [(contextSwitch_same _ _ _ x).1, (contextSwitch_same _ _ _ x).2.1, State.remove_thr]
      by_cases hx : x = init
      · subst hx
        simp [hcur ▸ hne, State.turnTo]
      · simp [hx, State.turnTo]
    · rw [(contextSwitch_same _ _ _ x).1, (contextSwitch_same _ _ _ x).2.1, hcur, if_neg (by simp)]
      exact ⟨rfl, rfl⟩
  have hrest : s'.proc = s1.proc ∧ s'.procObjs = s1.procObjs ∧ s'.procInitproc = s1.procInitproc := by
    rcases h2 with ⟨-, rfl⟩ | ⟨-, rfl⟩
    · exact ⟨rfl, rfl, rfl⟩
    · exact ⟨rfl, rfl, rfl⟩
  refine ⟨fun x => by rw [hrest.1, hk.proc], ?_, ?_, fun x q => ?_⟩
  · rw [hrest.2.1, hk.rest]
  · rw [hrest.2.2, hk.rest]
  rw [Asleep, Asleep, (hthr x).1, (hthr x).2, hk.thr, Halt.Spared, ← hinit x]
  by_cases hx : ∃ r ∈ s.procList, doomed s r ∧ x ∈ (s.proc r).pThreads
  · simp [hx]
  by_cases hxi : x = init ∧ x ≠ s.curthr
  · rw [if_pos hxi]
    exact iff_of_false (fun h3 => by cases h3.2) fun h3 => h3.2 (.inr hxi.symm)
  rw [if_neg hx, if_neg hxi]
  have hnot : ¬ ((∃ r ∈ s.procList, doomed s r ∧ x ∈ (s.proc r).pThreads) ∨ x ≠ s.curthr ∧ x = init) :=
    fun ho => ho.elim hx fun h3 => hxi h3.symm
  exact (and_iff_left hnot).symm

theorem Halt.clean_killAll_iff {h : Halt} (ht : ProcTree idle h.st) (hk : procKillAll h.st = .ok s') :
    (h.killAll s').Clean ↔ ∀ p ∈ h.st.procList, doomed h.st p → h.Ready p := by
  obtain ⟨hproc, -, -, hasleep⟩ := procKillAll_spec ht hk
  have hfiles : ∀ x, (s'.proc x).pFiles = (h.st.proc x).pFiles := fun x => by rw [hproc]; split_ifs <;> rfl
  have hchildren : ∀ x, (s'.proc x).pChildren = (h.st.proc x).pChildren := fun x => by rw [hproc]; split_ifs <;> rfl
  have hthreads : ∀ x, (s'.proc x).pThreads = (h.st.proc x).pThreads := fun x => by rw [hproc]; split_ifs <;> rfl
  have hparent : ∀ q p, ParentOf s' q p ↔ ParentOf h.st q p := by
    intro q p
    have hpp : (s'.proc p).pPproc = (h.st.proc p).pPproc := by rw [hproc]; split_ifs <;> rfl
    rw [ParentOf, ParentOf, hpp, hchildren]
  have hone : ∀ p, (h.killAll s').Cleaned p ↔ h.Ready p := by
    intro p
    constructor
    · intro hc
      refine ⟨fun f hf => hc.files f ?_, hc.cwd, (hchildren p).symm.trans hc.children, fun q hpq x hx hxq haw => ?_⟩
      · rwa [Halt.killAll, hfiles]
      by_contra hns
      have hfalse : h.awaits x p = false := hc.parent q ((hparent q p).2 hpq) x (hthreads q ▸ hx)
        ((hasleep x q).2 ⟨hxq, hns⟩)
      rw [haw] at hfalse
      cases hfalse
    · intro hr
      refine ⟨fun f hf => hr.files f ?_, hr.cwd, (hchildren p).trans hr.children, fun q hpq x hx hxq => ?_⟩
      · rwa [Halt.killAll, hfiles] at hf
      obtain ⟨hxq', hns⟩ := (hasleep x q).1 hxq
      have hx' : x ∈ (h.st.proc q).pThreads := hthreads q ▸ hx
      exact Bool.eq_false_iff.2 fun haw => hns (hr.parent q ((hparent q p).1 hpq) x hx' hxq' haw)
  constructor
  · exact fun hc p hp hd => (hone p).1 (hc p (mem_filter.2 ⟨hp, hd⟩))
  intro hr p hp
  obtain ⟨hmem, hd⟩ := mem_filter.1 hp
  exact (hone p).2 (hr p hmem hd)

theorem Halt.gone_killAll {h : Halt} (ht : ProcTree idle h.st) (hk : procKillAll h.st = .ok s') :
    (h.killAll s').Gone := by
  obtain ⟨hproc, hobjs, hinit, -⟩ := procKillAll_spec ht hk
  intro p hp
  obtain ⟨hmem, hd⟩ := mem_filter.1 hp
  refine ⟨hobjs ▸ (ht.same p).1 hmem, ?_, fun hi => ?_⟩
  · rw [Halt.killAll, hproc, if_pos ⟨hmem, hd⟩]
  have hpid := (ht.init p (hinit ▸ hi)).2.1
  simp [doomed, hpid] at hd

/-! ### Later steps -/

namespace Halt

variable {h h' : Halt}

theorem next_held (hp : p ∈ h.st.procObjs) (hen : Enabled h.st op) (hc : h.st.curproc ≠ p) (hh : h.held p = false)
    (s' : State) : h.holds op s' p = false := by
  have hlast : (h.held p && !((h.st.proc p).pState ≠ .dead && (s'.proc p).pState = .dead)) = false := by
    rw [hh, Bool.false_and]
  cases op with
  | call c =>
    cases c with
    | create q =>
      have hpq : p ≠ q := by
        rintro rfl
        exact hen.2 hp
      rw [holds, if_neg hpq]
      exact hh
    | setCwd v =>
      rw [holds, hh, Bool.or_false]
      exact decide_eq_false hc.symm
    | killAll => exact hh
    | _ => exact hlast
  | cont => exact hlast
  | intr ws => exact hlast

end Halt

namespace Dozes

variable (hz : Dozes s s')
include hz

theorem proc : s'.proc = s.proc ∧ s'.procInitproc = s.procInitproc := by
  obtain ⟨-, u, c, rfl | rfl, -, rfl⟩ := hz
  · exact ⟨rfl, rfl⟩
  · exact ⟨rfl, rfl⟩

/-- The running thread has gone to sleep, and nobody else. -/
theorem asleep (hx : Asleep s' x q) : Asleep s x q ∨ x = s.curthr ∧ q = s.curproc := by
  obtain ⟨-, u, c, hu, -, rfl⟩ := hz
  rw [Asleep, State.sleep_thr] at hx
  split_ifs at hx with hxc
  · refine .inr ⟨?_, (Queue.wait.inj (Option.some.inj hx.2)).symm⟩
    rcases hu with rfl | rfl <;> exact hxc
  · refine .inl ?_
    rcases hu with rfl | rfl <;> exact hx

theorem queuedSelf : queuedSelf s s' s.curthr = true := by
  obtain ⟨hw, u, c, hu, -, rfl⟩ := hz
  have hcur : u.curthr = s.curthr := by
    rcases hu with rfl | rfl
    · rfl
    · rfl
  refine decide_eq_true ⟨rfl, hcur, hw, ?_⟩
  simp [State.sleep, State.push, State.link, State.setState, State.setThr, State.setQueue, hcur]

/-- What the thread waits for has not exited. -/
theorem goal (hp : p ∈ (s.proc s.curproc).pChildren) (hd : (s.proc p).pState = .dead) : s'.goal p = false := by
  obtain ⟨-, u, c, -, hb, rfl⟩ := hz
  cases c with
  | waitAny st => exact absurd hd (hb p hp)
  | waitPid pid x st =>
    refine decide_eq_false ?_
    rintro rfl
    exact hb hd
  | _ => exact hb.elim

end Dozes

theorem Asleep.not_queuedSelf (hx : Asleep s x q) (s' : State) : queuedSelf s s' x = false := by
  refine decide_eq_false ?_
  rintro ⟨-, -, hnone, -⟩
  rw [hx.2] at hnone
  cases hnone

namespace Halt

variable {h h' : Halt}

theorem next_awaits (hx : Asleep h.st x q) (op : Op) (s' : State) (p : ℕ) : (h.next op s').awaits x p = h.awaits x p := by
  show (if queuedSelf h.st s' x then s'.goal p else h.awaits x p) = h.awaits x p
  rw [hx.not_queuedSelf]
  rfl

theorem LaterStep.killed (hs : LaterStep h op h') (hp : p ∈ h'.killed) :
    p ∈ h.killed ∧ p ∈ h'.st.procObjs ∧ h.st.curproc ≠ p := by
  obtain ⟨-, -, heq, hcur⟩ := hs
  rw [heq] at hp
  obtain ⟨hk, ho⟩ := mem_filter.1 hp
  refine ⟨hk, of_decide_eq_true ho, ?_⟩
  rintro rfl
  exact hcur hk

theorem LaterStep.gone (hs : LaterStep h op h') (hg : h.Gone) : h'.Gone := by
  intro p hp
  obtain ⟨hk, ho, hc⟩ := hs.killed hp
  obtain ⟨hpo, hd, hi⟩ := hg p hk
  rcases step_leaves hi hc hpo hs.1 hs.2.1 with hl | hz
  · exact ⟨ho, hl.dead hd, hl.init hi⟩
  rw [hz.proc.1, hz.proc.2]
  exact ⟨ho, hd, hi⟩

/-- No parent sleeps on for a killed process. -/
theorem LaterStep.parent (hs : LaterStep h op h') (hg : h.Gone) (hc : h.Clean) (hh : h.Heeds op) (hp : p ∈ h'.killed)
    (hpq : ParentOf h'.st q p) (hx : x ∈ (h'.st.proc q).pThreads) (hxq : Asleep h'.st x q) :
    h'.awaits x p = false := by
  obtain ⟨hk, -, hcur⟩ := hs.killed hp
  obtain ⟨hpo, hd, hi⟩ := hg p hk
  have hkeep : Asleep h.st x q → h'.awaits x p = h.awaits x p := fun hx => by rw [hs.2.2.1, next_awaits hx]
  rcases step_leaves hi hcur hpo hs.1 hs.2.1 with hl | hz
  · have hxq' := hl.asleep x q hxq
    have hx' := hl.threads x q hxq hx
    rw [hkeep hxq']
    rcases hl.parent q hpq with hold | ⟨hpass, hinit⟩
    · exact (hc p hk).parent q hold x hx' hxq'
    · exact hh p hk hpass q hinit x hx' hxq'
  rw [ParentOf, hz.proc.1] at hpq
  rw [hz.proc.1] at hx
  rcases hz.asleep hxq with hxq' | ⟨rfl, rfl⟩
  · rw [hkeep hxq']
    exact (hc p hk).parent q hpq x hx hxq'
  rw [hs.2.2.1]
  show (if queuedSelf h.st h'.st h.st.curthr then h'.st.goal p else _) = false
  rw [hz.queuedSelf, if_pos rfl]
  exact hz.goal hpq.2 hd

theorem LaterStep.clean (hs : LaterStep h op h') (hg : h.Gone) (hc : h.Clean) (hh : h.Heeds op) : h'.Clean := by
  intro p hp
  obtain ⟨hk, -, hcur⟩ := hs.killed hp
  obtain ⟨hpo, hd, hi⟩ := hg p hk
  have hcl := hc p hk
  refine ⟨?_, ?_, ?_, fun q hpq x hx hxq => hs.parent hg hc hh hp hpq hx hxq⟩
  · rcases step_leaves hi hcur hpo hs.1 hs.2.1 with hl | hz
    · rw [hl.files]
      exact hcl.files
    · rw [hz.proc.1]
      exact hcl.files
  · rw [hs.2.2.1]
    exact next_held hpo hs.1 hcur hcl.cwd _
  · rcases step_leaves hi hcur hpo hs.1 hs.2.1 with hl | hz
    · exact hl.children hcl.children
    rw [hz.proc.1]
    exact hcl.children

end Halt

/-- Behind a call of `proc_kill_all` every killed process has been cleaned up exactly if each of them was before the
call; and in a run after it in which no thread of a killed process runs, it is so in every state, if no killed process
passes to init while init sleeps for it. -/
theorem kill_all_cleans {h t : Halt} {ops : List Op} (ht : ProcTree idle h.st) (hk : procKillAll h.st = .ok s') :
    ((h.killAll s').Clean ↔ ∀ p ∈ h.st.procList, doomed h.st p → h.Ready p) ∧
    ((∀ p ∈ h.st.procList, doomed h.st p → h.Ready p) →
      Run (fun u op u' => Halt.LaterStep u op u' ∧ u.Heeds op) (h.killAll s') ops t →
      Run (fun u op u' => Halt.LaterStep u op u' ∧ u'.Clean) (h.killAll s') ops t) := by
  have hcall := Halt.clean_killAll_iff ht hk
  refine ⟨hcall, fun hready hrun => ?_⟩
  suffices hstate : Run _ _ ops t ∧ t.Gone ∧ t.Clean from hstate.1
  induction hrun with
  | nil => exact ⟨.nil, Halt.gone_killAll ht hk, hcall.2 hready⟩
  | snoc _ hs ih =>
    obtain ⟨hbefore, hg, hc⟩ := ih
    have hc' := hs.1.clean hg hc hs.2
    exact ⟨hbefore.snoc ⟨hs.1, hc'⟩, hs.1.gone hg, hc'⟩

/-! ### Runs by computation -/

theorem procKillAll_next (hok : (step s (.call .killAll)).isOk = true) :
    procKillAll s = .ok (s.next (.call .killAll)) := step_next s (.call .killAll) hok

theorem enabled_killAll (hf : s.cpu.frames = []) : Enabled s (.call .killAll) := ⟨hf, trivial⟩

theorem enabled_waitpid {pid options : ℤ} {a : ℕ} (hf : s.cpu.frames = []) :
    Enabled s (.call (.waitpid pid options a)) := ⟨hf, trivial⟩

instance : Decidable (Asleep s x q) := inferInstanceAs (Decidable (_ ∧ _))

namespace Halt

def CallStep (h : Halt) (op : Op) (h' : Halt) : Prop := TreeStep h.st op h'.st ∧ h' = h.next op h'.st

def move (h : Halt) (op : Op) : Halt := h.next op (h.st.next op)

theorem run_of {p t : ℕ} {ints : ℕ → ℤ} {ops : List Op}
    (hp : Passes (fun h op => h.st.fits op) move (boot p t ints) ops) :
    Run CallStep (boot p t ints) ops (ops.foldl move (boot p t ints)) ∧
      ProcInv p (ops.foldl move (boot p t ints)).st := by
  have hrun : Run CallStep (boot p t ints) ops (ops.foldl move (boot p t ints)) :=
    Run.of_passes (I := fun h => ProcInv p h.st) (procInv_boot p t ints) (fun _ _ _ hh hs => hh.step hs.1)
      (fun _ _ hh hfit => ⟨hh.fits hfit, rfl⟩) ops hp
  exact ⟨hrun, Run.invariant (I := fun h => ProcInv p h.st) (procInv_boot p t ints) (fun _ _ _ hh hs => hh.step hs.1) hrun⟩

theorem later_move {h : Halt} (hen : Enabled h.st op) (hok : (step h.st op).isOk = true) (hc : h.st.curproc ∉ h.killed) :
    LaterStep h op (h.move op) := ⟨hen, step_next h.st op hok, rfl, hc⟩

theorem not_clean_of_file {h : Halt} {f : ℕ} (hp : p ∈ (h.killAll s').killed) (hf : some f ∈ (s'.proc p).pFiles) :
    ¬ (h.killAll s').Clean := by
  intro hc
  cases (hc p hp).files _ hf

end Halt

/-- Init creates process 102, which exits and is not waited for. -/
def zombieOps : List Op :=
  [.call (.create 101), .call (.thread 1 101), .call (.makeRunnable 1), .call .switch, .cont, .cont,
    .call (.create 102), .call (.thread 2 102), .call (.makeRunnable 2), .call .yield, .cont, .cont,
    .call (.setCwd 7), .call (.openFile 0 9), .call (.exit 3), .cont]

def zombieState : Halt := zombieOps.foldl Halt.move (Halt.boot 100 0 fun _ => 0)

/-- Process 102 has exited when init calls `proc_kill_all`, and init reaps it later. -/
theorem kill_all_cleans_zombie : ∃ s' t, ProcTree 100 zombieState.st ∧ procKillAll zombieState.st = .ok s' ∧
    (zombieState.killAll s').killed = [102] ∧ t.killed = [] ∧ (zombieState.killAll s').Clean ∧
    Run (fun u op u' => Halt.LaterStep u op u' ∧ Halt.Clean u') (zombieState.killAll s')
      [.call (.waitpid (-1) 0 5)] t := by
  have hinv : ProcInv 100 zombieState.st := (Halt.run_of (by decide +kernel)).2
  have hk : procKillAll zombieState.st = .ok (zombieState.st.next (.call .killAll)) := procKillAll_next (by decide +kernel)
  have hready : ∀ p ∈ zombieState.st.procList, doomed zombieState.st p → zombieState.Ready p := by
    have hall : ∀ p ∈ zombieState.st.procList, doomed zombieState.st p → p = 102 := by decide +kernel
    have hawake : ∀ q ∈ (zombieState.st.proc 102).pPproc, ∀ x ∈ (zombieState.st.proc q).pThreads, ¬ Asleep zombieState.st x q := by
      decide +kernel
    intro p hp hd
    obtain rfl := hall p hp hd
    exact ⟨by decide +kernel, by decide +kernel, by decide +kernel, fun q hpq x hx hxq => absurd hxq (hawake q hpq.1 x hx)⟩
  have hnone : ((zombieState.killAll (zombieState.st.next (.call .killAll))).move (.call (.waitpid (-1) 0 5))).killed = [] := by
    decide +kernel
  have hlater : Halt.LaterStep (zombieState.killAll (zombieState.st.next (.call .killAll)))
      (.call (.waitpid (-1) 0 5)) _ :=
    Halt.later_move (enabled_waitpid (by decide +kernel)) (by decide +kernel) (by decide +kernel)
  have hheeds : (zombieState.killAll (zombieState.st.next (.call .killAll))).Heeds (.call (.waitpid (-1) 0 5)) := by
    have hawake : ∀ i ∈ (zombieState.st.next (.call .killAll)).procInitproc,
        ∀ x ∈ ((zombieState.st.next (.call .killAll)).proc i).pThreads,
          ¬ Asleep (zombieState.st.next (.call .killAll)) x i := by decide +kernel
    exact fun p _ _ i hi x hx hxi => absurd hxi (hawake i hi x hx)
  obtain ⟨hcall, hlaterRun⟩ := kill_all_cleans hinv.tree hk
  exact ⟨_, _, hinv.tree, hk, by decide +kernel, hnone, hcall.2 hready, hlaterRun hready (Run.nil.snoc ⟨hlater, hheeds⟩)⟩

/-- Idle creates init and process 102, which creates process 103 and waits for it. Process 103
opens a file and creates process 104. -/
def haltOps : List Op :=
  [.call (.create 101), .call (.thread 1 101), .call (.makeRunnable 1),
    .call (.create 102), .call (.thread 2 102), .call (.makeRunnable 2), .call .switch, .cont, .cont,
    .call .yield, .cont, .cont,
    .call (.setCwd 7), .call (.create 103), .call (.thread 3 103), .call (.makeRunnable 3),
    .call (.waitpid (-1) 0 5), .cont,
    .call .yield, .cont, .cont,
    .call (.openFile 0 9), .call (.create 104)]

def haltState : Halt := haltOps.foldl Halt.move (Halt.boot 100 0 fun _ => 0)

/-- Process 103 calls `proc_kill_all`. Init goes on; process 103 is dead, but its file is open, it holds its
directory, process 104 is still its child, and its parent sleeps until a child exits. -/
theorem kill_all_leaves_open : ∃ s', Run Halt.CallStep (Halt.boot 100 0 fun _ => 0) haltOps haltState ∧
    haltState.st.curproc = 103 ∧ Enabled haltState.st (.call .killAll) ∧ procKillAll haltState.st = .ok s' ∧
    s'.curproc = 101 ∧ (haltState.killAll s').killed = [103, 104] ∧ some 9 ∈ (s'.proc 103).pFiles ∧
    (haltState.killAll s').held 103 = true ∧ (s'.proc 103).pChildren = [104] ∧ 103 ∈ (s'.proc 102).pChildren ∧
    2 ∈ (s'.proc 102).pThreads ∧ Asleep s' 2 102 ∧ (haltState.killAll s').awaits 2 103 = true ∧
    ¬ (haltState.killAll s').Clean := by
  have hrun : Run Halt.CallStep (Halt.boot 100 0 fun _ => 0) haltOps haltState := (Halt.run_of (by decide +kernel)).1
  have hk : procKillAll haltState.st = .ok (haltState.st.next (.call .killAll)) := procKillAll_next (by decide +kernel)
  have hkilled : (haltState.killAll (haltState.st.next (.call .killAll))).killed = [103, 104] := by decide +kernel
  have hfile : some 9 ∈ ((haltState.st.next (.call .killAll)).proc 103).pFiles := by decide +kernel
  have hmem : 103 ∈ (haltState.killAll (haltState.st.next (.call .killAll))).killed := by
    rw [hkilled]
    decide
  exact ⟨haltState.st.next (.call .killAll), hrun, by decide +kernel, enabled_killAll (by decide +kernel), hk,
    by decide +kernel, hkilled, hfile, by decide +kernel, by decide +kernel, by decide +kernel, by decide +kernel,
    by decide +kernel, by decide +kernel, Halt.not_clean_of_file hmem hfile⟩

end Weenix.Sched
