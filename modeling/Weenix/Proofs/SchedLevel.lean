import Weenix.Proofs.SchedFiled

/-! The interrupt priority level across a switch. `sched_switch` restores the level of the thread
that calls it before it goes on with the stack of another, so a call returns at its own level
exactly if the thread that gave the processor away had called at the same one. -/

namespace Weenix.Sched

open Exec Runs

variable {s s' : State} {op : Op} {c : Code} {p t : ℕ} {ints : ℕ → ℤ}

/-- A step that goes on with a context that was stored. -/
def resumes (s : State) : Op → Bool
  | .cont => match s.cpu.frames with
    | [] => false
    | c :: _ => match exec s.pop c with
      | .ok (true, _) => true
      | _ => false
  | .call .killAll => true
  | _ => false

/-- The call of `sched_switch` that such a step leaves open: in which thread, and at which level
it was made. -/
def suspended (s : State) : Op → Option (ℕ × ℕ)
  | .cont => match s.cpu.frames with
    | .schedSwitch :: _ => some (s.curthr, s.ipl)
    | .switchTail old ipl :: _ | .contextSwitch old ipl :: _ => some (old, ipl)
    | _ => none
  | _ => none

def resumed (s : State) : Op → Option ℕ
  | .cont => match s.cpu.frames with
    | .schedSwitch :: _ => nextThread s
    | .switchTail _ _ :: _ | .contextSwitch _ _ :: _ => some s.curthr
    | _ => none
  | .call .killAll => match killProcs s.procList none s with
    | .ok (init, _) => init
    | .error _ => none
  | _ => none

/-- A state, with the level at which each thread made the call of `sched_switch` that its context
was stored in. -/
structure Levels where
  st : State
  level : ℕ → Option ℕ

namespace Levels

def boot (p t : ℕ) (ints : ℕ → ℤ) : Levels := ⟨bootState p t ints, fun _ => none⟩

/-- The levels behind a step. -/
def stored (L : Levels) : Op → ℕ → Option ℕ
  | .call (.thread t _) => Function.update L.level t none
  | .call .killAll => Function.update L.level L.st.curthr none
  | op => match resumes L.st op, suspended L.st op with
    | true, some (old, ipl) => Function.update L.level old (some ipl)
    | _, _ => L.level

def next (L : Levels) (op : Op) (s' : State) : Levels := ⟨s', L.stored op⟩

/-- If a call of `sched_switch` returns in a step, the level is that of its call. -/
def ReturnsRight (L : Levels) (op : Op) (s' : State) : Prop :=
  resumes L.st op = true → ∀ l, (L.next op s').level s'.curthr = some l → s'.ipl = l

/-- The thread that gives the processor away has called at the level at which the thread that gets
it did. -/
def SameLevel (L : Levels) (op : Op) : Prop :=
  resumes L.st op = true → ∀ t l, resumed L.st op = some t → L.stored op t = some l →
    match suspended L.st op with
    | some (_, ipl) => ipl = l
    | none => L.st.ipl = l

end Levels

def LevelStep (L : Levels) (op : Op) (L' : Levels) : Prop :=
  Enabled L.st op ∧ step L.st op = .ok L'.st ∧ L' = L.next op L'.st

theorem switchTail_resumes {old ipl : ℕ} (h : switchTail s old ipl = (true, s')) :
    s'.ipl = ipl ∧ s'.curthr = s.curthr := by
  unfold switchTail at h
  split_ifs at h
  · cases h
  cases h
  exact ⟨rfl, rfl⟩

theorem schedSwitch_resumes (h : schedSwitch s = .ok (true, s')) : s'.ipl = s.ipl ∧ nextThread s = some s'.curthr := by
  unfold schedSwitch at h
  dsimp only at h
  split_ifs at h
  · cases h
  · obtain ⟨s1, h1, h2⟩ := ok_of_bind h
    obtain ⟨t, k, ht, -, rfl⟩ := schedPick_ok _ h1
    obtain ⟨hipl, hcur⟩ := switchTail_resumes (Except.ok.inj h2)
    exact ⟨hipl, hcur ▸ ht⟩
  · cases h

/-- Only `sched_switch` goes on with a stored context, at the level that it has saved. -/
theorem exec_resumes {l : List Code} (hf : s.cpu.frames = c :: l) (h : exec s.pop c = .ok (true, s')) :
    (∃ old ipl, suspended s .cont = some (old, ipl) ∧ s'.ipl = ipl) ∧ resumed s .cont = some s'.curthr := by
  unfold suspended resumed
  rw [hf]
  cases c with
  | schedSwitch =>
    obtain ⟨hipl, hnext⟩ := schedSwitch_resumes (s := s.pop) h
    exact ⟨⟨s.curthr, s.ipl, rfl, hipl⟩, hnext⟩
  | switchTail old ipl =>
    obtain ⟨hipl, hcur⟩ := switchTail_resumes (Except.ok.inj h)
    exact ⟨⟨old, ipl, rfl, hipl⟩, congrArg some hcur.symm⟩
  | contextSwitch old ipl =>
    cases h
    exact ⟨⟨old, ipl, rfl, rfl⟩, rfl⟩
  | doExit | cleanupLoop | waitAny | waitPid =>
    obtain ⟨s1, -, h2⟩ := ok_of_map h
    cases h2
  | intrWait | exitReturn | lockReturn | lockCancellableReturn | ret | start => cases h

theorem killProcs_ipl (l : List ℕ) {init init' : Option ℕ} (h : killProcs l init s = .ok (init', s')) : s'.ipl = s.ipl :=
  killProcs_rel (M := fun s s' => s'.ipl = s.ipl) (fun _ => rfl) (fun h1 h2 => h2.trans h1) (fun _ _ => rfl)
    (fun _ _ => rfl) l h

theorem procKillAll_resumes (h : procKillAll s = .ok s') :
    s'.ipl = s.ipl ∧ resumed s (.call .killAll) = some s'.curthr := by
  unfold resumed
  obtain ⟨init, s1, h1, ⟨-, rfl⟩ | ⟨-, rfl⟩⟩ := procKillAll_ok h
  · exact ⟨(killProcs_ipl _ h1 :), by rw [h1]; rfl⟩
  · exact ⟨(killProcs_ipl _ h1 :), by rw [h1]; rfl⟩

/-- The level and the thread behind a step that goes on with a stored context. -/
theorem step_resumes (hs : step s op = .ok s') (hr : resumes s op = true) :
    (s'.ipl = match suspended s op with
      | some (_, ipl) => ipl
      | none => s.ipl) ∧ resumed s op = some s'.curthr := by
  cases op with
  | intr ws => cases hr
  | call c =>
    cases c with
    | killAll => exact procKillAll_resumes hs
    | _ => cases hr
  | cont =>
    cases hf : s.cpu.frames with
    | nil =>
      unfold resumes at hr
      rw [hf] at hr
      cases hr
    | cons c l =>
      unfold resumes at hr
      rw [hf] at hr
      rw [step, hf] at hs
      obtain ⟨⟨b, s1⟩, h1, rfl⟩ := ok_of_map hs
      dsimp only at hr
      rw [h1] at hr
      cases b with
      | false => cases hr
      | true =>
        obtain ⟨⟨old, ipl, h2, h3⟩, h4⟩ := exec_resumes hf h1
        rw [h2]
        exact ⟨h3, h4⟩

theorem returnsRight_iff {L : Levels} (hs : step L.st op = .ok s') : L.ReturnsRight op s' ↔ L.SameLevel op := by
  refine forall_congr' fun hr => ?_
  obtain ⟨hipl, hcur⟩ := step_resumes hs hr
  rw [hipl, hcur]
  cases suspended L.st op with
  | none | some r =>
    constructor
    · rintro h t l ⟨⟩ hl
      exact h l hl
    · exact fun h l hl => h _ l rfl hl

/-- A run in which every call of `sched_switch` returns at the level of the thread that made it. -/
def RightRun (p t : ℕ) (ints : ℕ → ℤ) : List Op → Levels → Prop :=
  Run (fun L op L' => LevelStep L op L' ∧ L.ReturnsRight op L'.st) (Levels.boot p t ints)

/-- A run in which the processor passes only between threads that have called at the same level. -/
def LevelRun (p t : ℕ) (ints : ℕ → ℤ) : List Op → Levels → Prop :=
  Run (fun L op L' => LevelStep L op L' ∧ L.SameLevel op) (Levels.boot p t ints)

/-- In a run every call of `sched_switch` returns at the level of the thread that made it exactly if
the processor passes only between threads that have called at the same level. -/
theorem rightRun_iff_levelRun (p t : ℕ) (ints : ℕ → ℤ) (ops : List Op) (L : Levels) :
    RightRun p t ints ops L ↔ LevelRun p t ints ops L := by
  constructor
  · intro h
    exact h.mono fun L op L' hs => ⟨hs.1, (returnsRight_iff hs.1.2.1).1 hs.2⟩
  · intro h
    exact h.mono fun L op L' hs => ⟨hs.1, (returnsRight_iff hs.1.2.1).2 hs.2⟩

/-! ### A run in which the level does not follow -/

def Levels.move (L : Levels) (op : Op) : Levels := L.next op (L.st.next op)

theorem level_run_of {ops : List Op}
    (hp : Passes (fun L op => L.st.files op) Levels.move (Levels.boot p t ints) ops) :
    Run LevelStep (Levels.boot p t ints) ops (ops.foldl Levels.move (Levels.boot p t ints)) := by
  have hrun : Run (fun L op L' => LevelStep L op L' ∧ QueueFine L.st op) (Levels.boot p t ints) ops
      (ops.foldl Levels.move (Levels.boot p t ints)) := by
    refine Run.of_passes (I := fun L => Filed L.st) (filed_boot p t ints) ?_ ?_ ops hp
    · rintro L op L' hf ⟨hs, hfine⟩
      exact ((step_iff hf hs.1 hs.2.1).2 hfine).filed
    intro L op hf hfit
    obtain ⟨hen, hs, hfine⟩ := hf.queueStep hfit
    exact ⟨⟨hen, hs, rfl⟩, hfine⟩
  exact hrun.mono fun _ _ _ hs => hs.1

/-- The idle thread sleeps. The first of two threads locks a mutex and yields, and the second asks
for the mutex. -/
def lockOps : List Op :=
  readyOps ++ [.call (.create 102), .call (.thread 2 102), .call (.makeRunnable 2), .call (.sleep 3), .cont, .cont,
    .call (.lock 5), .call .yield, .cont, .cont, .call (.lock 5)]

/-- The thread that has yielded at the low level goes on at the high level of `kmutex_lock` in the
other. -/
theorem lock_masks_other : ∃ L L', Run LevelStep (Levels.boot 100 0 fun _ => 0) lockOps L ∧ LevelStep L .cont L' ∧
    L'.st.curthr = 1 ∧ L'.st.cpu.frames = [] ∧ L'.level 1 = some IPL_LOW ∧ L'.st.ipl = IPL_HIGH ∧
    ¬ L.ReturnsRight .cont L'.st := by
  have hrun : Run LevelStep (Levels.boot 100 0 fun _ => 0) lockOps _ := level_run_of (by decide +kernel)
  have hs := step_next (lockOps.foldl Levels.move (Levels.boot 100 0 fun _ => 0)).st .cont (by decide +kernel)
  have hlevel : ((lockOps.foldl Levels.move (Levels.boot 100 0 fun _ => 0)).move .cont).level 1 = some IPL_LOW := by
    decide +kernel
  have hcur : ((lockOps.foldl Levels.move (Levels.boot 100 0 fun _ => 0)).move .cont).st.curthr = 1 := by
    decide +kernel
  have hipl : ((lockOps.foldl Levels.move (Levels.boot 100 0 fun _ => 0)).move .cont).st.ipl = IPL_HIGH := by
    decide +kernel
  refine ⟨_, _, hrun, ⟨⟨.schedSwitch, [.lockReturn 5 0], by decide +kernel, fun _ => Code.noConfusion⟩, hs, rfl⟩,
    hcur, by decide +kernel, hlevel, hipl, fun hright => ?_⟩
  have := hright (by decide +kernel) IPL_LOW (by rw [← hlevel, ← hcur]; rfl)
  exact absurd (hipl.symm.trans this) (by decide)

end Weenix.Sched
