import Mathlib.Tactic

/-! The scheduler and the mutexes of the kernel: `proc/sched.c`, `proc/kmutex.c` and
`context_switch`. One processor runs one thread until that thread calls `sched_switch`.
The calls open on a kernel stack are data, innermost first, so a context is a value:
`context_switch` stores the one in use in a thread and goes on with that of another. -/

namespace Weenix.Sched

open Function

def IPL_LOW : ℕ := 0
def IPL_HIGH : ℕ := 255
def EINTR : ℤ := 4
def ECHILD : ℤ := 10
def NFILES : ℕ := 32
def PID_IDLE : ℤ := 0
def PID_INIT : ℤ := 1
def PROC_MAX_COUNT : ℤ := 65536

/-- Where the kernel stops: a failed `KASSERT`, a null pointer followed, an object freed
that is not allocated, a pointer read before it was set. -/
inductive Fault where
  | kassert
  | null
  | invalidFree
  | unset
  deriving DecidableEq

/-- The queues of threads: the run queue, `p_wait` of a process, `km_waitq` of a mutex and
the queues of the rest of the kernel. -/
inductive Queue where
  | runq
  | wait (p : ℕ)
  | mutex (m : ℕ)
  | chan (n : ℕ)
  deriving DecidableEq

inductive KtState where
  | run
  | sleep
  | sleepCancellable
  | exited
  deriving DecidableEq

inductive PState where
  | running
  | dead
  deriving DecidableEq

/-- What the local variable `status` of `do_waitpid` points to: the integer the caller
named, or `p_status` of a process. -/
inductive StatusPtr where
  | out (a : ℕ)
  | pStatus (p : ℕ)
  deriving DecidableEq

/-- What is left to run of a call that is open on a stack. -/
inductive Code where
  /-- `sched_switch`, from its start -/
  | schedSwitch
  /-- `sched_switch`, halted in `intr_wait` -/
  | intrWait (ipl : ℕ)
  /-- `sched_switch`, from the test of `kt_cancelled` on -/
  | switchTail (old ipl : ℕ)
  /-- `sched_switch`, behind its call of `do_exit` -/
  | contextSwitch (old ipl : ℕ)
  /-- `do_exit`, from its start -/
  | doExit (status : ℤ)
  /-- `proc_cleanup`, at the head of the loop for the init process -/
  | cleanupLoop (status : ℤ)
  /-- `kthread_exit`, behind its call of `sched_switch` -/
  | exitReturn
  /-- `kmutex_lock`, behind its call of `sched_sleep_on` -/
  | lockReturn (m ipl : ℕ)
  /-- `kmutex_lock_cancellable`, behind its call of `sched_cancellable_sleep_on` -/
  | lockCancellableReturn (m ipl : ℕ)
  /-- `do_waitpid(-1)`, at the head of its loop -/
  | waitAny (status : StatusPtr)
  /-- `do_waitpid(pid)`, at the head of its loop -/
  | waitPid (pid : ℤ) (p : ℕ) (status : StatusPtr)
  /-- `sched_cancellable_sleep_on`, behind its call of `sched_switch` -/
  | ret (v : ℤ)
  /-- `__context_initial_func`, from its start -/
  | start
  deriving DecidableEq

/-- A context: the thread on whose stack it lies, and the calls open there. A thread with
no open call runs code outside the functions modelled here. -/
structure Context where
  stack : ℕ
  frames : List Code
  deriving DecidableEq

structure Kthread where
  ktCtx : Context
  ktProc : ℕ
  ktCancelled : Bool
  ktWchan : Option Queue
  ktState : KtState
  /-- the pointers of `kt_qlink` are not null -/
  ktQlink : Bool
  deriving DecidableEq

structure Ktqueue where
  tqList : List ℕ
  tqSize : ℤ
  deriving DecidableEq

structure Proc where
  pPid : ℤ
  pThreads : List ℕ
  pChildren : List ℕ
  pPproc : Option ℕ
  pStatus : ℤ
  pState : PState
  pListLink : Bool
  pChildLink : Bool
  pFiles : List (Option ℕ)
  pCwd : Option ℕ
  deriving DecidableEq

/-- Threads, processes and mutexes are named by their addresses. -/
structure State where
  thr : ℕ → Kthread
  queue : Queue → Ktqueue
  proc : ℕ → Proc
  procList : List ℕ
  nextPid : ℤ
  procInitproc : Option ℕ
  /-- the objects handed out by `kthread_allocator` and `proc_allocator` -/
  thrObjs : List ℕ
  procObjs : List ℕ
  curthr : ℕ
  curproc : ℕ
  kmHolder : ℕ → Option ℕ
  ipl : ℕ
  /-- the static variable of `sched_make_runnable` is still 1 -/
  schedFirst : Bool
  /-- the calls open on the stack in use -/
  cpu : Context
  /-- the value the last call returned -/
  ret : ℤ
  /-- the integers of the rest of the kernel -/
  ints : ℕ → ℤ

namespace State

variable (s : State)

def setThr (t : ℕ) (f : Kthread → Kthread) : State :=
  { s with thr := update s.thr t (f (s.thr t)) }

def setProc (p : ℕ) (f : Proc → Proc) : State :=
  { s with proc := update s.proc p (f (s.proc p)) }

def setQueue (q : Queue) (f : Ktqueue → Ktqueue) : State :=
  { s with queue := update s.queue q (f (s.queue q)) }

def setState (t : ℕ) (st : KtState) : State := s.setThr t fun k => { k with ktState := st }

def push (c : Code) : State := { s with cpu := { s.cpu with frames := c :: s.cpu.frames } }

end State

/-! ### Queues -/

def ktqueueEnqueue (s : State) (q : Queue) (t : ℕ) : Except Fault State :=
  if (s.thr t).ktWchan ≠ none then .error .kassert
  else .ok ((s.setQueue q fun k => ⟨t :: k.tqList, k.tqSize + 1⟩).setThr t fun k =>
    { k with ktWchan := some q, ktQlink := true })

/-- The thread that has waited longest is the last of the list. -/
def ktqueueDequeue (s : State) (q : Queue) : Option (ℕ × State) :=
  match (s.queue q).tqList.getLast? with
  | none => none
  | some t => some (t, (s.setQueue q fun k => ⟨k.tqList.dropLast, k.tqSize - 1⟩).setThr t fun k =>
      { k with ktWchan := none, ktQlink := false })

/-- `list_remove` of `kt_qlink`: out of the list it is linked in. -/
def qlinkRemove (s : State) (t : ℕ) : State :=
  { s with queue := fun q => { s.queue q with tqList := (s.queue q).tqList.erase t } }.setThr t
    fun k => { k with ktQlink := false }

def ktqueueRemove (s : State) (q : Option Queue) (t : ℕ) : Except Fault State :=
  if ¬ (s.thr t).ktQlink then .error .kassert
  else match q with
    | none => .error .null
    | some q => .ok (((qlinkRemove s t).setThr t fun k => { k with ktWchan := none }).setQueue q
        fun k => { k with tqSize := k.tqSize - 1 })

def schedQueueInit (s : State) (q : Queue) : State := s.setQueue q fun _ => ⟨[], 0⟩

def schedSleepOn (s : State) (q : Queue) : Except Fault State := do
  let t := s.curthr
  let s ← ktqueueEnqueue (s.setState t .sleep) q t
  return s.push .schedSwitch

/-- The first component of the result says whether the thread goes to sleep. -/
def schedCancellableSleepOn (s : State) (q : Queue) : Except Fault (Bool × State) := do
  let t := s.curthr
  let s := s.setState t .sleepCancellable
  if (s.thr t).ktCancelled then return (false, s)
  else
    let s ← ktqueueEnqueue s q t
    return (true, s.push .schedSwitch)

def schedWakeupOn (s : State) (q : Queue) : Except Fault (Option ℕ × State) :=
  match ktqueueDequeue s q with
  | none => .ok (none, s)
  | some (t, s) =>
    if (s.thr t).ktState ≠ .sleep ∧ (s.thr t).ktState ≠ .sleepCancellable then .error .kassert
    else do
      let s ← ktqueueEnqueue (s.setState t .run) .runq t
      return (some t, s)

/-- The loop of `sched_broadcast_on`; the first argument is the number of threads left. -/
def broadcastLoop (q : Queue) : ℕ → State → Except Fault State
  | 0, s => .ok s
  | n + 1, s =>
    match ktqueueDequeue s q with
    | none => .ok s
    | some (t, s) => do
      let s ← ktqueueEnqueue (s.setState t .run) .runq t
      broadcastLoop q n s

def schedBroadcastOn (s : State) (q : Queue) : Except Fault State := do
  let s ← broadcastLoop q (s.queue q).tqList.length s
  return schedQueueInit s q

def schedCancel (s : State) (t : ℕ) : Except Fault State :=
  if (s.thr t).ktState = .sleepCancellable then do
    let s := s.setThr t fun k => { k with ktCancelled := true, ktState := .run }
    let s ← ktqueueRemove s (s.thr t).ktWchan t
    ktqueueEnqueue s .runq t
  else .ok s

def schedMakeRunnable (s : State) (t : ℕ) : Except Fault State :=
  if (s.thr t).ktWchan = some .runq then .error .kassert
  else
    let s := if (s.proc (s.thr t).ktProc).pPid = 0 ∧ s.schedFirst then
      { schedQueueInit s .runq with schedFirst := false } else s
    ktqueueEnqueue (s.setState t .run) .runq t

/-! ### The switch -/

def contextSwitch (s : State) (old new : ℕ) : State :=
  let s := s.setThr old fun k => { k with ktCtx := s.cpu }
  { s with cpu := (s.thr new).ktCtx }

/-- The `while` loop of `sched_switch`; the first argument is the length of the run queue. -/
def schedPick : ℕ → State → Except Fault State
  -- the queue is empty: `ktqueue_dequeue` returns null and `curthr->kt_proc` is read
  | 0, _ => .error .null
  | n + 1, s =>
    match ktqueueDequeue s .runq with
    | none => .error .null
    | some (t, s) =>
      let s := { s with curthr := t, curproc := (s.thr t).ktProc }
      if (s.thr t).ktState = .exited then schedPick n s else .ok s

/-- The end of `sched_switch`. The first component of the result says whether another
context has been resumed. -/
def switchTail (s : State) (old ipl : ℕ) : Bool × State :=
  if (s.thr s.curthr).ktCancelled then (false, (s.push (.contextSwitch old ipl)).push (.doExit 0))
  else (true, contextSwitch { s with ipl := ipl } old s.curthr)

def schedSwitch (s : State) : Except Fault (Bool × State) :=
  let ipl := s.ipl
  let s := { s with ipl := IPL_HIGH }
  if (s.queue .runq).tqList = [] then .ok (false, { s with ipl := IPL_LOW }.push (.intrWait ipl))
  else
    let old := s.curthr
    if 0 < (s.queue .runq).tqSize then do
      let s ← schedPick (s.queue .runq).tqList.length s
      return switchTail s old ipl
    else .ok (false, (s.push (.switchTail old ipl)).push .schedSwitch)

/-! ### Mutexes -/

def kmutexLock (s : State) (m : ℕ) : Except Fault State :=
  let ipl := s.ipl
  let s := { s with ipl := IPL_HIGH }
  if s.kmHolder m = some s.curthr then .error .kassert
  else if s.kmHolder m = none then
    .ok { s with kmHolder := update s.kmHolder m (some s.curthr), ipl := ipl }
  else schedSleepOn (s.push (.lockReturn m ipl)) (.mutex m)

def kmutexLockCancellable (s : State) (m : ℕ) : Except Fault State :=
  let ipl := s.ipl
  let s := { s with ipl := IPL_HIGH }
  if s.kmHolder m = some s.curthr then .error .kassert
  else if s.kmHolder m = none then
    .ok { s with kmHolder := update s.kmHolder m (some s.curthr), ipl := ipl, ret := 0 }
  else do
    -- the result of `sched_cancellable_sleep_on` is not looked at
    let (_, s) ← schedCancellableSleepOn (s.push (.lockCancellableReturn m ipl)) (.mutex m)
    return s

def kmutexUnlock (s : State) (m : ℕ) : Except Fault State :=
  let ipl := s.ipl
  let s := { s with ipl := IPL_HIGH }
  if s.kmHolder m ≠ some s.curthr then .error .kassert
  else do
    let (next, s) ← schedWakeupOn s (.mutex m)
    let s := { s with kmHolder := update s.kmHolder m next, ipl := ipl }
    if s.kmHolder m = some s.curthr then .error .kassert else return s

end Weenix.Sched
