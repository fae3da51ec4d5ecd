import Weenix.Spec.Sched

/-! Threads and processes: `proc/kthread.c` and `proc/proc.c`, and the machine that runs
them: calls by the running thread, the code it has left to run, and interrupts. -/

namespace Weenix.Sched

/-! ### Creation -/

/-- The search of `_proc_getid`; the first argument bounds the pids tried. -/
def procGetidFrom (s : State) : ℕ → ℤ → ℤ × ℤ
  | 0, _ => (-1, s.nextPid)
  | n + 1, pid =>
    if s.procList.any fun p => (s.proc p).pPid = pid then
      let pid := (pid + 1) % PROC_MAX_COUNT
      if pid = s.nextPid then (-1, s.nextPid) else procGetidFrom s n pid
    else (pid, (pid + 1) % PROC_MAX_COUNT)

/-- `_proc_getid`: the pid, and the new value of `next_pid`. -/
def procGetid (s : State) : ℤ × ℤ := procGetidFrom s PROC_MAX_COUNT.toNat s.nextPid

/-- `proc_create`, with `new` the object handed out by `proc_allocator`. -/
def procCreate (s : State) (new : ℕ) : Except Fault State :=
  let (pid, next) := procGetid s
  let cwd := if 2 < pid then (s.proc s.curproc).pCwd else none
  if pid = PID_IDLE ∧ s.procList ≠ [] then .error .kassert
  else if pid = PID_INIT ∧ (s.proc s.curproc).pPid ≠ PID_IDLE then .error .kassert
  -- `vref` of a null `p_cwd`
  else if 2 < pid ∧ cwd = none then .error .kassert
  else
    let s := { s with
      nextPid := next
      procObjs := new :: s.procObjs
      procInitproc := if pid = PID_INIT then some new else s.procInitproc
      proc := Function.update s.proc new
        { pPid := pid, pThreads := [], pChildren := [], pPproc := some s.curproc, pStatus := 0,
          pState := .running, pListLink := true, pChildLink := false,
          pFiles := List.replicate NFILES none, pCwd := cwd }
      procList := s.procList ++ [new] }
    let s := schedQueueInit s (.wait new)
    .ok (if 0 < pid then
      (s.setProc s.curproc fun q => { q with pChildren := q.pChildren ++ [new] }).setProc new
        fun q => { q with pChildLink := true }
      else s)

/-- `kthread_create`, with `t` the object handed out by `kthread_allocator`. -/
def kthreadCreate (s : State) (t p : ℕ) : State :=
  { s with
    thrObjs := t :: s.thrObjs
    thr := Function.update s.thr t
      { ktCtx := ⟨t, [.start]⟩, ktProc := p, ktCancelled := false, ktWchan := none, ktState := .run,
        ktQlink := true } }.setProc p fun q => { q with pThreads := q.pThreads ++ [t] }

/-! ### Exit -/

/-- `list_remove` of `p_child_link`: out of the list it is linked in. -/
def childRemove (s : State) (p : ℕ) : State :=
  { s with proc := fun x => { s.proc x with pChildren := (s.proc x).pChildren.erase p } }.setProc p
    fun q => { q with pChildLink := false }

/-- `p` becomes the last child of the init process. -/
def adopt (s : State) (p : ℕ) : Except Fault State :=
  match s.procInitproc with
  | none => .error .null
  | some i => .ok (((s.setProc p fun q => { q with pPproc := some i }).setProc i
      fun q => { q with pChildren := q.pChildren ++ [p] }).setProc p
        fun q => { q with pChildLink := true })

/-- The loop of `proc_cleanup` over the children. -/
def reparent : List ℕ → State → Except Fault State
  | [], s => .ok s
  | p :: l, s =>
    if (s.proc p).pChildLink then do
      let s ← adopt (childRemove s p) p
      reparent l s
    else reparent l s

/-- The loop of `proc_cleanup` over the threads of the parent. -/
def wakeParent (parent : ℕ) : List ℕ → State → Except Fault State
  | [], s => .ok s
  | t :: l, s =>
    if (s.thr t).ktState = .sleep then do
      let (_, s) ← schedWakeupOn s (.wait parent)
      wakeParent parent l s
    else wakeParent parent l s

/-- `proc_cleanup` behind its loop for the init process. -/
def cleanupRest (s : State) (status : ℤ) : Except Fault State :=
  let p := s.curproc
  let s := s.setProc p fun q => { q with pFiles := q.pFiles.map fun _ => none }
  -- `vput` of a null `p_cwd`
  if (s.proc p).pCwd = none then .error .kassert
  else do
    let s ← reparent (s.proc p).pChildren s
    let s := s.setProc p fun q => { q with pState := .dead, pStatus := status }
    match (s.proc p).pPproc with
    | none => .error .null
    | some parent => wakeParent parent (s.proc parent).pThreads s

/-- `proc_cleanup` from the loop for the init process on. -/
def cleanupLoop (s : State) (status : ℤ) : Except Fault State :=
  if s.procInitproc = some s.curproc ∧ (s.proc s.curproc).pChildren ≠ [] then
    .ok ((s.push (.cleanupLoop status)).push .schedSwitch)
  else cleanupRest s status

/-- `kthread_exit`, with the integer that `retval` points to. -/
def kthreadExit (s : State) (status : ℤ) : Except Fault State :=
  let t := s.curthr
  if (s.thr t).ktWchan ≠ none ∨ (s.thr t).ktQlink ∨ (s.thr t).ktProc ≠ s.curproc then .error .kassert
  else
    let s := ((s.setState t .exited).push .exitReturn).push .schedSwitch
    if (s.proc s.curproc).pPid < 1 ∨ (s.proc s.curproc).pPproc = none then .error .kassert
    else cleanupLoop s status

def kthreadCancel (s : State) (t : ℕ) (status : ℤ) : Except Fault State :=
  if t = s.curthr then kthreadExit s status
  else match (s.thr t).ktState with
    | .sleepCancellable => schedCancel s t
    | .sleep | .run => .ok (s.setThr t fun k => { k with ktCancelled := true })
    | .exited => .ok s

def doExit (s : State) (status : ℤ) : Except Fault State := kthreadCancel s s.curthr status

/-- The loop of `proc_kill` over the threads of the process. Cancelling the running thread
does not return. -/
def killThreads (status : ℤ) : List ℕ → State → Except Fault State
  | [], s => .ok s
  | t :: l, s =>
    if (s.thr t).ktState = .exited then killThreads status l s
    else if t = s.curthr then kthreadCancel s t status
    else do
      let s ← kthreadCancel s t status
      killThreads status l s

def procKill (s : State) (p : ℕ) (status : ℤ) : Except Fault State :=
  if p = s.curproc then doExit s status else killThreads status (s.proc p).pThreads s

/-- The loop of `proc_kill_all`, with the local variable `init`. -/
def killProcs : List ℕ → Option ℕ → State → Except Fault (Option ℕ × State)
  | [], init, s => .ok (init, s)
  | p :: l, init, s =>
    let pid := (s.proc p).pPid
    if pid ≠ PID_INIT ∧ pid ≠ PID_IDLE then
      match (s.proc p).pPproc with
      | none => .error .null
      | some q =>
        if (s.proc q).pPid = PID_IDLE then killProcs l init s
        else killProcs l init (((s.proc p).pThreads.foldl (fun s t => s.setState t .exited) s).setProc
          p fun q => { q with pState := .dead })
    else if pid = PID_INIT then killProcs l ((s.proc p).pThreads.getLast?.or init) s
    else killProcs l init s

def procKillAll (s : State) : Except Fault State := do
  let (init, s) ← killProcs s.procList none s
  match init with
  | none => .error .unset
  | some init =>
    let old := s.curthr
    let s := { s with curthr := init, curproc := (s.thr init).ktProc }
    if old ≠ init then
      if (s.thr init).ktQlink then
        -- `list_remove` without a change of `tq_size`
        return contextSwitch ((qlinkRemove s init).setThr init fun k => { k with ktWchan := none }) old init
      else .error .null
    else return contextSwitch s old init

/-! ### Waiting -/

def procLookup (s : State) (pid : ℤ) : Option ℕ := s.procList.find? fun p => (s.proc p).pPid = pid

/-- `kthread_destroy` -/
def kthreadDestroy (s : State) (t : ℕ) : Except Fault State :=
  if t ∈ s.thrObjs then
    .ok ({ s with thrObjs := s.thrObjs.erase t }.setProc (s.thr t).ktProc
      fun q => { q with pThreads := q.pThreads.erase t })
  else .error .invalidFree

/-- The children of an exited process become children of the init process; they stay
linked in the list of the process that is being disposed of. -/
def adoptAll : List ℕ → State → Except Fault State
  | [], s => .ok s
  | p :: l, s => do
    let s ← adopt s p
    adoptAll l s

/-- Unlinks an exited process from its parent, if it is linked. -/
def unlinkChild (s : State) (p : ℕ) : Except Fault State :=
  if (s.proc p).pChildLink then adoptAll (s.proc p).pChildren (childRemove s p) else .ok s

/-- Takes a process off the two lists and frees it. -/
def procFree (s : State) (p : ℕ) : Except Fault State :=
  let s := if (s.proc p).pListLink then
    { s with procList := s.procList.erase p }.setProc p fun q => { q with pListLink := false } else s
  let s := if (s.proc p).pChildLink then childRemove s p else s
  if p ∈ s.procObjs then .ok { s with procObjs := s.procObjs.erase p } else .error .invalidFree

/-- The local variables of `do_waitpid(-1)`. -/
structure Wait where
  count : ℕ
  pid : ℤ
  p : Option ℕ
  status : StatusPtr

/-- The loop of `do_waitpid(-1)` over the children. -/
def reapScan : List ℕ → Wait → State → Except Fault (Wait × State)
  | [], w, s => .ok (w, s)
  | p :: l, w, s =>
    if (s.proc p).pState ≠ .dead then reapScan l { w with p := some p } s
    else do
      let w := ⟨w.count + 1, (s.proc p).pPid, some p, .pStatus p⟩
      let s ← unlinkChild s p
      match (s.proc p).pThreads.find? fun t => (s.thr t).ktState = .exited with
      | some t =>
        let s ← kthreadDestroy s t
        return (w, s)
      | none => reapScan l w s

/-- One round of the loop of `do_waitpid(-1)`. -/
def waitAny (s : State) (status : StatusPtr) : Except Fault State :=
  if (s.proc s.curproc).pChildren = [] then .ok { s with ret := -1 }
  else do
    let (w, s) ← reapScan (s.proc s.curproc).pChildren ⟨0, -1, none, status⟩ s
    if w.count = 0 then schedSleepOn (s.push (.waitAny w.status)) (.wait s.curproc)
    else match w.p with
      | none => .error .null
      | some p =>
        let s ← procFree s p
        return { s with ret := w.pid }

def destroyExited : List ℕ → State → Except Fault State
  | [], s => .ok s
  | t :: l, s =>
    if (s.thr t).ktState = .exited then do
      let s ← kthreadDestroy s t
      destroyExited l s
    else destroyExited l s

/-- One round of the loop of `do_waitpid(pid)`, and what follows it. Pointing the local
variable `status` at `p_status` is the last use of it. -/
def waitPid (s : State) (pid : ℤ) (p : ℕ) (status : StatusPtr) : Except Fault State :=
  if (s.proc p).pState = .dead then do
    let s ← unlinkChild s p
    let _status := StatusPtr.pStatus p
    let s ← destroyExited (s.proc p).pThreads s
    let s ← procFree s p
    return { s with ret := pid }
  else schedSleepOn (s.push (.waitPid pid p status)) (.wait s.curproc)

/-- The search for the child. The `break` in it leaves only the body of the iteration
macro, so `p` ends as the last child. -/
def findChild (s : State) (pid : ℤ) (p : ℕ) : Bool × ℕ :=
  (s.proc s.curproc).pChildren.foldl (fun r x => (r.1 || (s.proc x).pPid = pid, x)) (false, p)

def doWaitpid (s : State) (pid options : ℤ) (status : ℕ) : Except Fault State :=
  -- the assertion reads `p->p_pid` with `p` still null
  if procLookup s pid = none ∧ pid ≠ -1 then .error .null
  else if options ≠ 0 ∧ pid < -1 then .ok { s with ret := -ECHILD }
  else if pid = -1 then
    if (s.proc s.curproc).pChildren = [] then .ok { s with ret := -ECHILD }
    else waitAny s (.out status)
  else match procLookup s pid with
    | none => .error .null
    | some p =>
      if (s.proc p).pPproc ≠ some s.curproc then .ok { s with ret := -ECHILD }
      else match findChild s pid p with
        | (false, _) => .ok { s with ret := -ECHILD }
        | (true, p) => waitPid s pid p (.out status)

/-! ### The machine -/

/-- What a thread may call. The object addresses of `create` and `thread` are the answers
of the allocators; the last four are what the rest of the kernel does to the state. -/
inductive Call where
  | lock (m : ℕ)
  | lockCancellable (m : ℕ)
  | unlock (m : ℕ)
  | sleep (n : ℕ)
  | sleepCancellable (n : ℕ)
  | wakeup (n : ℕ)
  | broadcast (n : ℕ)
  | makeRunnable (t : ℕ)
  | yield
  | switch
  | create (p : ℕ)
  | thread (t p : ℕ)
  | exit (status : ℤ)
  | cancel (t : ℕ) (status : ℤ)
  | kill (p : ℕ) (status : ℤ)
  | killAll
  | waitpid (pid options : ℤ) (status : ℕ)
  | store (a : ℕ) (v : ℤ)
  | setCwd (v : ℕ)
  | openFile (fd f : ℕ)
  | setipl (l : ℕ)

def call (s : State) : Call → Except Fault State
  | .lock m => kmutexLock s m
  | .lockCancellable m => kmutexLockCancellable s m
  | .unlock m => kmutexUnlock s m
  | .sleep n => schedSleepOn s (.chan n)
  | .sleepCancellable n => do
    let (slept, s) ← schedCancellableSleepOn (s.push (.ret 0)) (.chan n)
    if slept then return s
    else return { s with cpu := { s.cpu with frames := s.cpu.frames.tail }, ret := -EINTR }
  | .wakeup n => do
    let (_, s) ← schedWakeupOn s (.chan n)
    return s
  | .broadcast n => schedBroadcastOn s (.chan n)
  | .makeRunnable t => schedMakeRunnable s t
  | .yield => do
    let s ← schedMakeRunnable s s.curthr
    return s.push .schedSwitch
  | .switch => .ok (s.push .schedSwitch)
  | .create p => procCreate s p
  | .thread t p => .ok (kthreadCreate s t p)
  | .exit status => doExit s status
  | .cancel t status => kthreadCancel s t status
  | .kill p status => procKill s p status
  | .killAll => procKillAll s
  | .waitpid pid options status => doWaitpid s pid options status
  | .store a v => .ok { s with ints := Function.update s.ints a v }
  | .setCwd v => .ok (s.setProc s.curproc fun q => { q with pCwd := some v })
  | .openFile fd f => .ok (s.setProc s.curproc fun q => { q with pFiles := q.pFiles.set fd (some f) })
  | .setipl l => .ok { s with ipl := l }

/-- Runs the innermost open call, which is no longer on the stack. The first component of
the result says whether another context has been resumed. -/
def exec (s : State) : Code → Except Fault (Bool × State)
  | .schedSwitch => schedSwitch s
  | .intrWait ipl => .ok (false, { s with ipl := ipl }.push .schedSwitch)
  | .switchTail old ipl => .ok (switchTail s old ipl)
  | .contextSwitch old ipl => .ok (true, contextSwitch { s with ipl := ipl } old s.curthr)
  | .doExit status => (doExit s status).map (false, ·)
  | .cleanupLoop status => (cleanupLoop s status).map (false, ·)
  | .exitReturn => .ok (false, s)
  | .lockReturn _ ipl => .ok (false, { s with ipl := ipl })
  | .lockCancellableReturn _ ipl => .ok (false, { s with ipl := ipl, ret := 0 })
  | .waitAny status => (waitAny s status).map (false, ·)
  | .waitPid pid p status => (waitPid s pid p status).map (false, ·)
  | .ret v => .ok (false, { s with ret := v })
  | .start => .ok (false, { s with ipl := IPL_LOW })

/-- What an interrupt handler does to the queues. -/
inductive Wake where
  | wakeup (n : ℕ)
  | broadcast (n : ℕ)

def wake (s : State) : Wake → Except Fault State
  | .wakeup n => do
    let (_, s) ← schedWakeupOn s (.chan n)
    return s
  | .broadcast n => schedBroadcastOn s (.chan n)

def interrupt (s : State) (ws : List Wake) : Except Fault State := ws.foldlM wake s

inductive Op where
  /-- the running thread, with no call open, makes a call -/
  | call (c : Call)
  /-- the running thread goes on with its innermost open call -/
  | cont
  /-- an interrupt -/
  | intr (ws : List Wake)

def State.pop (s : State) : State := { s with cpu := { s.cpu with frames := s.cpu.frames.tail } }

def step (s : State) : Op → Except Fault State
  | .call c => call s c
  | .cont =>
    match s.cpu.frames with
    | [] => .ok s
    | c :: _ => (exec s.pop c).map Prod.snd
  | .intr ws => do
    let s ← interrupt s ws
    match s.cpu.frames with
    -- the interrupt ends `intr_wait`
    | .intrWait ipl :: _ => (exec s.pop (.intrWait ipl)).map Prod.snd
    | _ => return s

/-- Who may do what: calls come from a thread with no open call and name objects that
exist, an object that is still in use is not handed out, a halted processor waits for an
interrupt, and other interrupts come at the low level only. -/
def Enabled (s : State) : Op → Prop
  | .call c => s.cpu.frames = [] ∧
    match c with
    | .makeRunnable t => t ∈ s.thrObjs ∧ t ≠ s.curthr
    | .create p => p ∉ s.procObjs
    | .thread t p => t ∉ s.thrObjs ∧ t ≠ s.curthr ∧ (∀ q, t ∉ (s.queue q).tqList) ∧ p ∈ s.procObjs
    | .cancel t _ => t ∈ s.thrObjs
    | .kill p _ => p ∈ s.procObjs
    | _ => True
  | .cont => ∃ c l, s.cpu.frames = c :: l ∧ ∀ ipl, c ≠ .intrWait ipl
  | .intr _ => (∃ ipl l, s.cpu.frames = .intrWait ipl :: l) ∨ s.cpu.frames = [] ∧ s.ipl = IPL_LOW

/-- The state in which `bootstrap` leaves the kernel: the idle process and its thread. -/
def bootState (p t : ℕ) (ints : ℕ → ℤ) : State where
  thr := fun x =>
    { ktCtx := ⟨x, [.start]⟩, ktProc := p, ktCancelled := false, ktWchan := none, ktState := .run,
      ktQlink := true }
  queue := fun _ => ⟨[], 0⟩
  proc := fun x =>
    { pPid := PID_IDLE, pThreads := if x = p then [t] else [], pChildren := [], pPproc := none,
      pStatus := 0, pState := .running, pListLink := true, pChildLink := false,
      pFiles := List.replicate NFILES none, pCwd := none }
  procList := [p]
  nextPid := 1
  procInitproc := none
  thrObjs := [t]
  procObjs := [p]
  curthr := t
  curproc := p
  kmHolder := fun _ => none
  ipl := IPL_LOW
  schedFirst := true
  cpu := ⟨t, []⟩
  ret := 0
  ints := ints

end Weenix.Sched
