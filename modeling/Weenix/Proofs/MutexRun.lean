import Weenix.Proofs.Mutex

/-! Runs with mutexes. The machine is watched: who calls `kmutex_lock`, who is made the
holder and who returns, in order. For each mutex this is a run of the lock that is handed
over in the order of the requests. -/

namespace Weenix.Sched.Mutex

open Runs FifoLock Function List

variable {s s' : State} {t m : ℕ} {op : Op}

def returned (s : State) (op : Op) (s' : State) : Option ℕ :=
  match op, s.cpu.frames with
  | .call (.lock m), _ => if s'.cpu.frames = [] then some m else none
  | .cont, .lockReturn m _ :: _ => some m
  | _, _ => none

def lockCall : Op → Option ℕ
  | .call (.lock m) => some m
  | _ => none

def unlockCall : Op → Option ℕ
  | .call (.unlock m) => some m
  | _ => none

theorem returned_some (h : returned s op s' = some m) : op = .call (.lock m) ∧ s'.cpu.frames = [] ∨
    op = .cont ∧ ∃ ipl l, s.cpu.frames = .lockReturn m ipl :: l := by
  unfold returned at h
  split at h
  · split_ifs at h with hf
    cases h
    exact .inl ⟨rfl, hf⟩
  · rename_i hf
    cases h
    exact .inr ⟨rfl, _, _, hf⟩
  · cases h

theorem step_returned (h : step s op = .ok s') (hr : returned s op s' = some m) : s'.curthr = s.curthr := by
  rcases returned_some hr with ⟨rfl, -⟩ | ⟨rfl, ipl, l, hf⟩
  · obtain ⟨-, ⟨-, rfl⟩ | ⟨-, -, rfl⟩⟩ := kmutexLock_ok h
    · rfl
    · rfl
  rw [step, hf] at h
  cases h
  rfl

structure Sys where
  st : State
  log : ℕ → Log ℕ

namespace Sys

def boot (p t : ℕ) (ints : ℕ → ℤ) : Sys := ⟨bootState p t ints, fun _ => ⟨[], [], [], []⟩⟩

def lock (S : Sys) (m : ℕ) : Lock ℕ :=
  { S.log m with holder := S.st.kmHolder m, waiters := (S.st.queue (.mutex m)).tqList.reverse }

def record (S : Sys) (op : Op) (s' : State) : Sys where
  st := s'
  log m :=
    { calls := if lockCall op = some m then (S.log m).calls ++ [S.st.curthr] else (S.log m).calls
      granted := if s'.kmHolder m = S.st.kmHolder m then (S.log m).granted
        else (S.log m).granted ++ (s'.kmHolder m).toList
      entered := if returned S.st op s' = some m then (S.log m).entered ++ [S.st.curthr]
        else (S.log m).entered
      inside := if unlockCall op = some m then (S.log m).inside.erase S.st.curthr
        else if returned S.st op s' = some m then S.st.curthr :: (S.log m).inside
        else (S.log m).inside }

end Sys

/-- A thread locks no mutex it is inside and unlocks only such a mutex, nothing is
cancelled, and the address of a thread that holds a mutex is not given to a new thread. -/
def Allowed (S : Sys) (op : Op) : Prop :=
  Enabled S.st op ∧
  match op with
  | .call (.lock m) => S.st.curthr ∉ (S.log m).inside
  | .call (.unlock m) => S.st.curthr ∈ (S.log m).inside
  | .call (.thread t _) => ∀ m, S.st.kmHolder m ≠ some t
  | .call (.lockCancellable _) | .call (.cancel _ _) | .call (.kill _ _) | .call .killAll => False
  | _ => True

def MutexStep (S : Sys) (op : Op) (S' : Sys) : Prop :=
  Allowed S op ∧ step S.st op = .ok S'.st ∧ S' = S.record op S'.st

structure Good (S : Sys) : Prop where
  stable : Stable S.st
  locks : Locks S.st fun m => (S.log m).inside
  fair : ∀ m, Fair (S.lock m)

variable {S : Sys}

/-- A step in which nothing happens to the mutexes. -/
theorem Good.quiet (h : Good S) (hst : Stable s') (hl : Locks s' fun m => (S.log m).inside)
    (hq : Quiet S.st s') (hlock : lockCall op = none) (hunlock : unlockCall op = none)
    (hret : returned S.st op s' = none) : Good (S.record op s') := by
  have hlog : (S.record op s').log = S.log := by
    funext m
    simp [Sys.record, hlock, hunlock, hret, hq.kmHolder]
  have hlocks : (S.record op s').lock = S.lock := by
    funext m
    rw [Sys.lock, hlog]
    change ({ S.log m with holder := s'.kmHolder m, waiters := _ } : Lock ℕ) = _
    rw [hq.kmHolder]
    change ({ S.log m with holder := _, waiters := (s'.queue (.mutex m)).tqList.reverse } : Lock ℕ) = _
    rw [hq.waitq]
    rfl
  refine ⟨hst, ?_, ?_⟩
  · rw [hlog]
    exact hl
  · rw [hlocks]
    exact h.fair

/-- A step in which something happens to `m` only. -/
theorem Good.at (h : Good S) (m : ℕ) (hst : Stable s') (hord : Orderly s')
    (hbot : ∀ t, ∀ c ∈ (point s' t).dropLast, ¬ c.IsLock) (hstep : Step (S.lock m) ((S.record op s').lock m))
    (hother : ∀ x, x ≠ m → (S.record op s').lock x = S.lock x) (hlock : ∀ x, x ≠ m → ∀ t, InLock s' t x ↔ InLock S.st t x)
    (hwait : ∀ t ∈ (s'.queue (.mutex m)).tqList, InLock s' t m)
    (hpend : ∀ t, InLock s' t m → t ∈ (s'.queue (.mutex m)).tqList ∨ s'.kmHolder m = some t)
    (hin : ∀ t, s'.kmHolder m = some t → (t ∈ ((S.record op s').log m).inside ↔ ¬ InLock s' t m)) :
    Good (S.record op s') := by
  have hqueue : ∀ x, x ≠ m → (s'.queue (.mutex x)).tqList = (S.st.queue (.mutex x)).tqList := fun x hx =>
    reverse_injective (congrArg Lock.waiters (hother x hx))
  have hholder : ∀ x, x ≠ m → s'.kmHolder x = S.st.kmHolder x := fun x hx => congrArg Lock.holder (hother x hx)
  refine ⟨hst, ⟨hord, hbot, fun x t ht => ?_, fun x t ht => ?_, fun x t ht => ?_⟩, fun x => ?_⟩
  all_goals
    rcases eq_or_ne x m with rfl | hx
  · exact hwait t ht
  · exact (hlock x hx t).2 (h.locks.waiting x t (hqueue x hx ▸ ht))
  · exact hpend t ht
  · exact (hqueue x hx).symm ▸ (hholder x hx).symm ▸ h.locks.pending x t ((hlock x hx t).1 ht)
  · exact hin t ht
  · refine (iff_of_eq (congrArg (t ∈ ·.inside) (hother x hx))).trans ?_
    exact (h.locks.inside x t ((hholder x hx).symm.trans ht)).trans (not_congr (hlock x hx t).symm)
  · exact hstep.fair (h.fair x)
  · rw [hother x hx]
    exact h.fair x

theorem not_inLock_nil (hf : s.cpu.frames = []) (m : ℕ) : ¬ InLock s s.curthr m := by
  rintro ⟨ipl, h⟩
  rw [point_cur, hf] at h
  cases h

/-- A thread with no call open that holds a mutex is inside it. -/
theorem Good.inside (h : Good S) (hf : S.st.cpu.frames = []) (hm : S.st.kmHolder m = some S.st.curthr) :
    S.st.curthr ∈ (S.log m).inside :=
  (h.locks.inside m _ hm).2 (not_inLock_nil hf m)

theorem Good.holder (h : Good S) (ht : t ∈ (S.log m).inside) : S.st.kmHolder m = some t :=
  ((h.fair m).owned.of_mem ht).1

/-- `kmutex_lock` of a free mutex. -/
theorem Good.take (h : Good S) (hf : S.st.cpu.frames = []) (hm : S.st.kmHolder m = none) :
    Good (S.record (.call (.lock m)) { S.st with kmHolder := update S.st.kmHolder m (some S.st.curthr) }) := by
  have hret : returned S.st (.call (.lock m))
      { S.st with kmHolder := update S.st.kmHolder m (some S.st.curthr) } = some m := if_pos hf
  refine h.at m (h.stable.congr rfl rfl rfl rfl rfl) (h.locks.toOrderly.congr rfl rfl) h.locks.bottom ?_
    (fun x hx => ?_) (fun _ _ _ => Iff.rfl) (h.locks.waiting m) (fun t ht => ?_) fun t ht => ?_
  · have := Step.take (S.lock m) S.st.curthr hm
    convert this using 1
    simp [Sys.lock, Sys.record, lockCall, unlockCall, hret, hm]
  · simp [Sys.lock, Sys.record, lockCall, unlockCall, hret, hx, Ne.symm hx]
  · refine .inl ((h.locks.pending m t ht).resolve_right fun hx => ?_)
    rw [hm] at hx
    cases hx
  · obtain rfl : S.st.curthr = t := by simpa using ht
    change _ ∈ ((S.record _ _).log m).inside ↔ ¬ InLock S.st _ m
    simp [Sys.record, unlockCall, hret, not_inLock_nil hf]

abbrev lockSleep (s : State) (m : ℕ) : State :=
  ({ s with ipl := IPL_HIGH }.push (.lockReturn m s.ipl)).sleep (.mutex m) .sleep

theorem lockSleep_waitq (s : State) (m x : ℕ) : ((lockSleep s m).queue (.mutex x)).tqList =
    if x = m then s.curthr :: (s.queue (.mutex m)).tqList else (s.queue (.mutex x)).tqList := by
  refine (State.sleep_list _ _ _ _).trans ?_
  simp only [Queue.mutex.injEq]
  rfl

theorem lockSleep_point (hf : s.cpu.frames = []) (m x : ℕ) : point (lockSleep s m) x =
    if x = s.curthr then [.schedSwitch, .lockReturn m s.ipl] else point s x := by
  refine (point_sleep _ _ _ x).trans ?_
  rw [point_push]
  change (if x = s.curthr then .schedSwitch :: if x = s.curthr then _ :: point s x else _ else
    if x = s.curthr then _ else point s x) = _
  split_ifs with hx
  · rw [hx, point_cur, hf]
  · rfl

/-- `kmutex_lock` of a mutex that another thread holds. -/
theorem Good.wait (h : Good S) (hf : S.st.cpu.frames = []) (hm : S.st.kmHolder m ≠ none)
    (hcur : S.st.kmHolder m ≠ some S.st.curthr) : Good (S.record (.call (.lock m)) (lockSleep S.st m)) := by
  have hw := h.stable.wchan (not_switching_nil hf)
  have hopen : Effects anyCall S.st ({ S.st with ipl := IPL_HIGH }.push (.lockReturn m S.st.ipl)) :=
    (Effects.rest rfl : Effects anyCall S.st { S.st with ipl := IPL_HIGH }).tail
      (.push _ _ trivial)
  have hacts : Acts anyCall S.st (lockSleep S.st m) :=
    ⟨_, hopen, .sleep _ _ _ trivial trivial hw (fit_sleep Queue.noConfusion).1⟩
  have hret : returned S.st (.call (.lock m)) (lockSleep S.st m) = none := by
    simp [returned, State.sleep, State.push]
  have hkm : (lockSleep S.st m).kmHolder = S.st.kmHolder := rfl
  have hwq := lockSleep_waitq S.st m
  have hin : ∀ x y, InLock (lockSleep S.st m) x y ↔
      if x = S.st.curthr then y = m else InLock S.st x y := by
    intro x y
    rw [InLock, lockSleep_point hf]
    split_ifs with hx
    · simp [eq_comm]
    · rfl
  refine h.at m (hacts.stable (fun _ => id) id h.stable.toFramed hw) (hacts.effects.orderly h.locks.toOrderly)
    (fun x c hc => ?_) ?_ (fun x hx => ?_) (fun x hx t => ?_) (fun t ht => ?_) (fun t ht => ?_) fun t ht => ?_
  · rw [lockSleep_point hf] at hc
    split_ifs at hc
    · obtain rfl := mem_singleton.1 hc
      exact id
    · exact h.locks.bottom x c hc
  · have := Step.wait (S.lock m) S.st.curthr hm
    convert this using 1
    generalize lockSleep S.st m = s' at hret hkm hwq ⊢
    simp [Sys.lock, Sys.record, lockCall, unlockCall, hret, hkm, hwq]
  · generalize lockSleep S.st m = s' at hret hkm hwq ⊢
    simp [Sys.lock, Sys.record, lockCall, unlockCall, hret, hkm, hwq, hx, Ne.symm hx]
  · rw [hin]
    split_ifs with ht
    · exact iff_of_false hx (ht ▸ not_inLock_nil hf x)
    · rfl
  · rw [lockSleep_waitq, if_pos rfl] at ht
    rw [hin]
    split_ifs with htc
    · rfl
    · exact h.locks.waiting m t ((mem_cons.1 ht).resolve_left htc)
  · rw [hin] at ht
    rw [lockSleep_waitq, if_pos rfl]
    split_ifs at ht with htc
    · exact .inl (htc ▸ mem_cons_self)
    · exact (h.locks.pending m t ht).imp_left (mem_cons_of_mem _)
  · rw [hin, if_neg fun htc => hcur (ht.trans (congrArg some htc)), ← h.locks.inside m t ht]
    simp [Sys.record, unlockCall, hret]

/-- `kmutex_unlock` of a mutex that no thread waits for. -/
theorem Good.free (h : Good S) (hf : S.st.cpu.frames = []) (hin : S.st.curthr ∈ (S.log m).inside)
    (hm : (S.st.queue (.mutex m)).tqList = []) : Good (S.record (.call (.unlock m))
      { S.st with kmHolder := update S.st.kmHolder m none }) := by
  have hret : ∀ s', returned S.st (.call (.unlock m)) s' = none := fun _ => rfl
  refine h.at m (h.stable.congr rfl rfl rfl rfl rfl) (h.locks.toOrderly.congr rfl rfl) h.locks.bottom ?_
    (fun x hx => ?_) (fun _ _ _ => Iff.rfl) (h.locks.waiting m) (fun t ht => ?_) fun t ht => ?_
  · have := Step.free (S.lock m) S.st.curthr hin (by simp [Sys.lock, hm])
    convert this using 1
    simp [Sys.lock, Sys.record, lockCall, unlockCall, hret]
  · simp [Sys.lock, Sys.record, lockCall, unlockCall, hret, hx, Ne.symm hx]
  · refine .inl ((h.locks.pending m t ht).resolve_right fun hx => ?_)
    obtain rfl := Option.some.inj ((h.holder hin).symm.trans hx)
    exact not_inLock_nil hf m ht
  · simp at ht

abbrev handOver (s : State) (m u : ℕ) : State :=
  { (((s.unlink (.mutex m) u).setState u .run).link .runq u) with
    kmHolder := update s.kmHolder m (some u) }

theorem handOver_waitq (s : State) (m u x : ℕ) : ((handOver s m u).queue (.mutex x)).tqList =
    if x = m then (s.queue (.mutex m)).tqList.dropLast else (s.queue (.mutex x)).tqList := by
  refine (State.link_list _ _ _ _).trans ?_
  refine (State.unlink_list s (.mutex m) (.mutex x) u).trans ?_
  simp

theorem handOver_point (s : State) (m u : ℕ) : point (handOver s m u) = point s := by
  refine point_congr rfl rfl fun x => ?_
  by_cases hx : x = u
  · simp [hx]
  · simp [hx]

/-- `kmutex_unlock` of a mutex that `u` has waited for longest. -/
theorem Good.handOver {u : ℕ} (h : Good S) (hf : S.st.cpu.frames = [])
    (hin : S.st.curthr ∈ (S.log m).inside) (hu : (S.st.queue (.mutex m)).tqList.getLast? = some u)
    (hne : u ≠ S.st.curthr) : Good (S.record (.call (.unlock m)) (handOver S.st m u)) := by
  have hw := h.stable.wchan (not_switching_nil hf)
  have heff := (wakes_effects (σ := anyCall) trivial).wake S.st (.mutex m) u trivial hu (h.stable.unqueued hw _)
  have hst : Stable (Mutex.handOver S.st m u) :=
    (heff.acts.stable (fun _ => id) id h.stable.toFramed hw).congr rfl rfl rfl rfl rfl
  have hord : Orderly (Mutex.handOver S.st m u) := (heff.orderly h.locks.toOrderly).congr rfl rfl
  have hret : ∀ s', returned S.st (.call (.unlock m)) s' = none := fun _ => rfl
  have hpoint := handOver_point S.st m u
  have hwq := handOver_waitq S.st m u
  have hkm : (Mutex.handOver S.st m u).kmHolder = update S.st.kmHolder m (some u) := rfl
  have hlist := dropLast_append_getLast? u hu
  have hulock : InLock S.st u m := h.locks.waiting m u (mem_of_getLast? hu)
  generalize Mutex.handOver S.st m u = s' at *
  refine h.at m hst hord (hpoint ▸ h.locks.bottom) ?_ (fun x hx => ?_) (fun x _ t => inLock_congr hpoint t x)
    (fun t ht => ?_) (fun t ht => ?_) fun t ht => ?_
  · have hrev : (S.lock m).waiters = u :: (S.st.queue (.mutex m)).tqList.dropLast.reverse := by
      rw [Sys.lock, ← hlist]
      simp
    have := Step.handOver (S.lock m) S.st.curthr u _ hin hrev
    convert this using 1
    have hholder : ¬ some u = S.st.kmHolder m := by
      rw [h.holder hin]
      simpa using hne
    simp [Sys.lock, Sys.record, lockCall, unlockCall, hret, hkm, hwq, hholder]
  · simp [Sys.lock, Sys.record, lockCall, unlockCall, hret, hkm, hwq, hx, Ne.symm hx]
  · rw [hwq, if_pos rfl] at ht
    rw [inLock_congr hpoint]
    exact h.locks.waiting m t (mem_of_mem_dropLast ht)
  · rw [inLock_congr hpoint] at ht
    rw [hwq, if_pos rfl, hkm, update_self]
    rcases h.locks.pending m t ht with hw | hx
    · rw [← hlist] at hw
      exact (mem_append.1 hw).imp_right fun hw => by rw [mem_singleton.1 hw]
    · obtain rfl := Option.some.inj ((h.holder hin).symm.trans hx)
      exact absurd ht (not_inLock_nil hf m)
  · rw [hkm, update_self] at ht
    cases ht
    rw [inLock_congr hpoint]
    -- the new holder has not returned yet, and nobody else is inside
    refine iff_of_false ?_ (not_not.2 hulock)
    have hone : (S.log m).inside = [S.st.curthr] := ((h.fair m).owned.of_mem hin).2.1
    simp [Sys.record, unlockCall, hone]

/-- `kmutex_lock` is the outermost open call of its caller. -/
theorem Good.lockReturn {ipl : ℕ} {l : List Code} (h : Good S) (hf : S.st.cpu.frames = .lockReturn m ipl :: l) :
    l = [] ∧ InLock S.st S.st.curthr m ∧ S.st.kmHolder m = some S.st.curthr := by
  have hl : l = [] := by
    cases l with
    | nil => rfl
    | cons c l =>
      have := h.locks.bottom S.st.curthr (.lockReturn m ipl)
      rw [point_cur, hf, dropLast_cons_cons] at this
      exact absurd trivial (this mem_cons_self)
  have hin : InLock S.st S.st.curthr m := by
    refine ⟨ipl, ?_⟩
    rw [point_cur, hf, hl, List.getLast?_singleton]
  have hw := h.stable.wchan (not_switching_cons hf Code.noConfusion fun _ => Code.noConfusion)
  exact ⟨hl, hin, (h.locks.pending m _ hin).resolve_left (h.stable.queued.not_mem hw _)⟩

/-- `kmutex_lock` returns. -/
theorem Good.enter {ipl : ℕ} {l : List Code} (h : Good S) (hf : S.st.cpu.frames = .lockReturn m ipl :: l) :
    Good (S.record .cont { S.st.pop with ipl := ipl }) := by
  obtain ⟨rfl, hin, hm⟩ := h.lockReturn hf
  have hret : ∀ s', returned S.st .cont s' = some m := by
    intro s'
    simp [returned, hf]
  have hst : Stable { S.st.pop with ipl := ipl } := by
    have hpop := h.stable.toFramed.pop
    refine ⟨hpop.congr rfl rfl rfl rfl rfl hpop.own, .inl ?_⟩
    exact h.stable.wchan (not_switching_cons hf Code.noConfusion fun _ => Code.noConfusion)
  have hout : S.st.curthr ∉ (S.log m).inside := fun hx => (h.locks.inside m _ hm).1 hx hin
  have hpoint : ∀ x, point { S.st.pop with ipl := ipl } x =
      if x = S.st.curthr then [] else point S.st x := by
    intro x
    refine (point_pop S.st x).trans ?_
    split_ifs with hx
    · rw [hx, point_cur, hf]
      rfl
    · rfl
  have hin' : ∀ x y, InLock { S.st.pop with ipl := ipl } x y ↔ x ≠ S.st.curthr ∧ InLock S.st x y := by
    intro x y
    rw [InLock, hpoint]
    split_ifs with hx
    · simp [hx]
    · simp [hx, InLock]
  have honly : ∀ y, InLock S.st S.st.curthr y ↔ y = m := by
    intro y
    rw [InLock, point_cur, hf]
    simp [eq_comm]
  refine h.at m hst (h.locks.toOrderly.congr rfl rfl) (fun x c hc => ?_) ?_ (fun x hx => ?_) (fun x hx t => ?_)
    (fun t ht => ?_) (fun t ht => h.locks.pending m t ((hin' t m).1 ht).2) fun t ht => ?_
  · rw [hpoint] at hc
    split_ifs at hc
    · cases hc
    · exact h.locks.bottom x c hc
  · have := Step.enter (S.lock m) S.st.curthr hm hout
    convert this using 1
    simp [Sys.lock, Sys.record, lockCall, unlockCall, hret, State.pop]
  · simp [Sys.lock, Sys.record, lockCall, unlockCall, hret, Ne.symm hx, State.pop]
  · rw [hin', and_iff_right_iff_imp]
    rintro ht rfl
    exact hx ((honly x).1 ht)
  · refine (hin' t m).2 ⟨?_, h.locks.waiting m t ht⟩
    rintro rfl
    exact h.stable.queued.not_mem (h.stable.wchan
      (not_switching_cons hf Code.noConfusion fun _ => Code.noConfusion)) _ ht
  · obtain rfl : S.st.curthr = t := Option.some.inj (hm.symm.trans ht)
    rw [hin']
    simp [Sys.record, unlockCall, hret]

/-! ### Steps and runs -/

/-- A call that neither locks, unlocks nor kills. -/
theorem Good.call {c : Call} (h : Good S) (hc : c.Neutral) (hen : Enabled S.st (.call c))
    (hcr : ∀ t p, c = .thread t p → ∀ m, S.st.kmHolder m ≠ some t) (hs : call S.st c = .ok s') :
    Good (S.record (.call c) s') := by
  have hw := h.stable.wchan (not_switching_nil hen.1)
  have heff : Effects (elsewhere S.st.kmHolder) S.st s' :=
    (call_acts (elsewhere_ordinary _) hc hen hcr hw (.inl trivial) hs).effects
  refine h.quiet (h.stable.neutral_call anyCall_ordinary (fun _ => id) id hen hc (fun _ _ _ => trivial) hs)
    (heff.locks h.locks) heff.quiet ?_ ?_ ?_
  all_goals
    cases c with
    | lock | lockCancellable | unlock | cancel | kill | killAll => exact hc.elim
    | _ => rfl

theorem Good.intr {ws : List Wake} (h : Good S) (hen : Enabled S.st (.intr ws))
    (hs : step S.st (.intr ws) = .ok s') : Good (S.record (.intr ws) s') := by
  have heff : ∀ {s1}, interrupt S.st ws = .ok s1 → Effects (elsewhere S.st.kmHolder) S.st s1 :=
    fun h1 => (wakes_effects fun _ => Queue.noConfusion).interrupt (fun _ _ => Queue.noConfusion) ws h1 (.inl trivial)
  have hst := h.stable.intr hen hs
  rcases step_intr hen hs with ⟨s1, ipl, l, hf, h1, hh, rfl⟩ | ⟨hf, h1⟩
  · have hcpu := hh.cpu fun _ => id
    have hl := ((heff h1).locks h.locks).pop (c := .intrWait ipl) (l := l) (by rw [hcpu, hf]) id
    have hipl : Effects (elsewhere s1.kmHolder) s1.pop { s1.pop with ipl := ipl } :=
      .rest rfl
    have hpush := hipl.tail (.push _ .schedSwitch ⟨trivial, id⟩)
    exact h.quiet hst (hpush.locks hl) ⟨(heff h1).quiet.waitq, (heff h1).quiet.kmHolder⟩ rfl rfl rfl
  · exact h.quiet hst ((heff h1).locks h.locks) (heff h1).quiet rfl rfl rfl

theorem Good.cont (h : Good S) (hen : Enabled S.st .cont) (hs : step S.st .cont = .ok s') :
    Good (S.record .cont s') := by
  obtain ⟨c, l, b, hf, hi, h1⟩ := step_cont hen hs
  have hp : c.Own S.st.curthr := h.stable.own c (hf ▸ mem_cons_self)
  by_cases hc : c.IsLock
  · cases c with
    | lockReturn m ipl =>
      cases h1
      exact h.enter hf
    | _ => exact hc.elim
  have hst := h.stable.cont anyCall_ordinary (fun _ => id) id hf hi (fun _ => h.locks.takes) h1
  obtain ⟨hl, hq⟩ := h.locks.cont hf hp hc h1
  refine h.quiet hst hl hq rfl rfl (Option.eq_none_iff_forall_ne_some.2 fun m hret => ?_)
  obtain ⟨-, ipl, l', hf'⟩ := (returned_some hret).resolve_left fun hr => Op.noConfusion hr.1
  obtain ⟨rfl, -⟩ := List.cons.inj (hf.symm.trans hf')
  exact hc trivial

theorem Good.step {S' : Sys} (h : Good S) (hs : MutexStep S op S') : Good S' := by
  obtain ⟨⟨hen, ha⟩, hs, hS'⟩ := hs
  rw [hS']
  cases op with
  | cont => exact h.cont hen hs
  | intr ws => exact h.intr hen hs
  | call c =>
    cases c with
    | lock m =>
      obtain ⟨hcur, ⟨hm, hs'⟩ | ⟨hm, -, hs'⟩⟩ := kmutexLock_ok hs
      · rw [hs']
        exact h.take hen.1 hm
      · rw [hs']
        exact h.wait hen.1 hm hcur
    | unlock m =>
      obtain ⟨-, ⟨hm, hs'⟩ | ⟨u, hu, hne, hs'⟩⟩ := kmutexUnlock_ok hs
      · rw [hs']
        exact h.free hen.1 ha hm
      · rw [hs']
        exact h.handOver hen.1 ha hu hne
    | lockCancellable | cancel | kill | killAll => exact ha.elim
    | thread t p =>
      refine h.call trivial hen ?_ hs
      rintro t' p' heq
      obtain ⟨rfl, -⟩ := Call.thread.inj heq
      exact ha
    | _ => exact h.call trivial hen (fun _ _ => Call.noConfusion) hs

theorem good_boot (p t : ℕ) (ints : ℕ → ℤ) : Good (Sys.boot p t ints) := by
  have hpoint : ∀ x, point (bootState p t ints) x = [] ∨ point (bootState p t ints) x = [.start] := by
    intro x
    by_cases hx : x = t
    · exact .inl (if_pos hx)
    · exact .inr (if_neg hx)
  refine ⟨stable_boot p t ints, ⟨⟨(stable_boot p t ints).queued, fun _ _ h => (by cases h), fun _ => rfl⟩,
    fun x c hc => ?_, fun _ _ h => (by cases h), fun m x hx => ?_, fun _ _ h => by cases h⟩,
    fun m => ⟨rfl, .free rfl rfl rfl rfl⟩⟩
  · change c ∈ (point (bootState p t ints) x).dropLast at hc
    rcases hpoint x with h | h
    · rw [h] at hc
      cases hc
    · rw [h] at hc
      cases hc
  obtain ⟨ipl, h⟩ : InLock (bootState p t ints) x m := hx
  rcases hpoint x with hp | hp
  · rw [hp] at h
    cases h
  · rw [hp] at h
    cases h

theorem good_run {p t : ℕ} {ints : ℕ → ℤ} {ops : List Op}
    (hrun : Run MutexStep (Sys.boot p t ints) ops S) : Good S :=
  hrun.invariant (good_boot p t ints) fun _ _ _ h hs => h.step hs

/-- In every run of threads that lock and unlock: at most one thread is between a returned
`kmutex_lock` and its `kmutex_unlock`, and it is the holder; `kmutex_lock` does not fail and
returns only to the holder; `kmutex_unlock` returns at once; the mutex is handed out, and
entered, in the order of the calls, with those not served yet on the queue. -/
theorem mutex_exclusive_fifo {p t : ℕ} {ints : ℕ → ℤ} {ops : List Op}
    (hrun : Run MutexStep (Sys.boot p t ints) ops S) (m : ℕ) : (S.log m).inside.length ≤ 1 ∧
    (∀ x ∈ (S.log m).inside, S.st.kmHolder m = some x) ∧
    (∀ op S', MutexStep S op S' → returned S.st op S'.st = some m →
      S'.st.curthr = S.st.curthr ∧ S'.st.kmHolder m = some S'.st.curthr) ∧
    (Allowed S (.call (.lock m)) → ∃ s', step S.st (.call (.lock m)) = .ok s') ∧
    (Allowed S (.call (.unlock m)) → ∃ s', step S.st (.call (.unlock m)) = .ok s' ∧
      s'.curthr = S.st.curthr ∧ s'.cpu = S.st.cpu) ∧
    (S.log m).calls = (S.log m).granted ++ (S.st.queue (.mutex m)).tqList.reverse ∧
    (S.log m).entered <+: (S.log m).granted := by
  have h := good_run hrun
  refine ⟨(h.fair m).inside_length, fun x hx => h.holder hx, fun op S' hs hret => ?_, fun ha => ?_,
    fun ha => ?_, (h.fair m).order, (h.fair m).entered_initial⟩
  · have hS' := h.step hs
    obtain ⟨-, hstep, heq⟩ := hs
    have hcur : S'.st.curthr = S.st.curthr := step_returned hstep hret
    have hin : S.st.curthr ∈ (S'.log m).inside := by
      rw [heq]
      rcases returned_some hret with ⟨rfl, -⟩ | ⟨rfl, -⟩
      · simp [Sys.record, unlockCall, hret]
      · simp [Sys.record, unlockCall, hret]
    exact ⟨hcur, hcur ▸ hS'.holder hin⟩
  · refine kmutexLock_total (fun hm => ha.2 (h.inside ha.1.1 hm)) ?_
    exact h.stable.wchan (not_switching_nil ha.1.1)
  · have hw := h.stable.wchan (not_switching_nil ha.1.1)
    obtain ⟨s', hs'⟩ := kmutexUnlock_total h.stable.queued (h.holder ha.2) hw (h.locks.fit (.mutex m))
    refine ⟨s', hs', ?_⟩
    obtain ⟨-, ⟨-, rfl⟩ | ⟨u, -, -, rfl⟩⟩ := kmutexUnlock_ok hs'
    · exact ⟨rfl, rfl⟩
    · exact ⟨rfl, rfl⟩

def Sys.next (S : Sys) (op : Op) : Sys :=
  match step S.st op with
  | .ok s' => S.record op s'
  | .error _ => S

theorem next_run {S₀ : Sys} {ops : List Op} (h : Run MutexStep S₀ ops S) (op : Op) (ha : Allowed S op)
    (hok : (step S.st op).isOk) : Run MutexStep S₀ (ops ++ [op]) (S.next op) := by
  cases hs : step S.st op with
  | error f =>
    rw [hs] at hok
    cases hok
  | ok s' =>
    rw [Sys.next, hs]
    exact h.snoc ⟨ha, hs, rfl⟩

/-- Three threads lock one mutex. The first unlocks it, and the second returns while the
third waits. -/
theorem contended_run : ∃ ops S, Run MutexStep (Sys.boot 100 0 fun _ => 0) ops S ∧
    (S.log 5).calls = [0, 1, 2] ∧ (S.log 5).granted = [0, 1] ∧ (S.log 5).entered = [0, 1] ∧
    (S.log 5).inside = [1] ∧ (S.st.queue (.mutex 5)).tqList = [2] := by
  have h0 : Run MutexStep (Sys.boot 100 0 fun _ => 0) [] _ := Run.nil
  have h1 := next_run h0 (.call (.thread 1 100))
    ⟨⟨rfl, by decide, by decide, fun _ h => (by cases h), by decide⟩, fun _ h => by cases h⟩ rfl
  have h2 := next_run h1 (.call (.thread 2 100))
    ⟨⟨rfl, by decide, by decide, fun _ h => (by cases h), by decide⟩, fun _ h => by cases h⟩ rfl
  have h3 := next_run h2 (.call (.makeRunnable 1)) ⟨⟨rfl, by decide, by decide⟩, trivial⟩ rfl
  have h4 := next_run h3 (.call (.makeRunnable 2)) ⟨⟨rfl, by decide, by decide⟩, trivial⟩ rfl
  have h5 := next_run h4 (.call (.lock 5)) ⟨⟨rfl, trivial⟩, by decide⟩ rfl
  have h6 := next_run h5 (.call .yield) ⟨⟨rfl, trivial⟩, trivial⟩ rfl
  have h7 := next_run h6 .cont ⟨⟨_, _, rfl, fun _ h => by cases h⟩, trivial⟩ rfl
  have h8 := next_run h7 .cont ⟨⟨_, _, rfl, fun _ h => by cases h⟩, trivial⟩ rfl
  have h9 := next_run h8 (.call (.lock 5)) ⟨⟨rfl, trivial⟩, by decide⟩ rfl
  have h10 := next_run h9 .cont ⟨⟨_, _, rfl, fun _ h => by cases h⟩, trivial⟩ rfl
  have h11 := next_run h10 .cont ⟨⟨_, _, rfl, fun _ h => by cases h⟩, trivial⟩ rfl
  have h12 := next_run h11 (.call (.lock 5)) ⟨⟨rfl, trivial⟩, by decide⟩ rfl
  have h13 := next_run h12 .cont ⟨⟨_, _, rfl, fun _ h => by cases h⟩, trivial⟩ rfl
  have h14 := next_run h13 (.call (.unlock 5)) ⟨⟨rfl, trivial⟩, by decide⟩ rfl
  have h15 := next_run h14 (.call .yield) ⟨⟨rfl, trivial⟩, trivial⟩ rfl
  have h16 := next_run h15 .cont ⟨⟨_, _, rfl, fun _ h => by cases h⟩, trivial⟩ rfl
  have h17 := next_run h16 .cont ⟨⟨_, _, rfl, fun _ h => by cases h⟩, trivial⟩ rfl
  exact ⟨_, _, h17, rfl, rfl, rfl, rfl, rfl⟩

theorem mutex_exclusive_fifo_contended : ∃ ops S, Run MutexStep (Sys.boot 100 0 fun _ => 0) ops S ∧
    (S.log 5).calls = [0, 1, 2] ∧ (S.log 5).granted = [0, 1] ∧ (S.log 5).entered = [0, 1] ∧
    (S.log 5).inside = [1] ∧ (S.log 5).inside.length ≤ 1 := by
  obtain ⟨ops, S, hrun, hcalls, hgranted, hentered, hinside, -⟩ := contended_run
  exact ⟨ops, S, hrun, hcalls, hgranted, hentered, hinside, (mutex_exclusive_fifo hrun 5).1⟩

/-- No wakeup is lost: a mutex with waiting threads is held, and a thread in `kmutex_lock` waits or has been given it. -/
theorem mutex_waiters_served {p t : ℕ} {ints : ℕ → ℤ} {ops : List Op} (hrun : Run MutexStep (Sys.boot p t ints) ops S)
    (m : ℕ) : ((S.st.queue (.mutex m)).tqList ≠ [] → S.st.kmHolder m ≠ none) ∧
      ∀ x, InLock S.st x m → x ∈ (S.st.queue (.mutex m)).tqList ∨ S.st.kmHolder m = some x := by
  have h := good_run hrun
  refine ⟨fun hne hnone => hne ?_, h.locks.pending m⟩
  exact reverse_eq_nil_iff.1 ((h.fair m).owned.of_none hnone).1

theorem mutex_waiters_served_contended : ∃ ops S, Run MutexStep (Sys.boot 100 0 fun _ => 0) ops S ∧
    (S.st.queue (.mutex 5)).tqList = [2] ∧ S.st.kmHolder 5 ≠ none := by
  obtain ⟨ops, S, hrun, -, -, -, -, hwaits⟩ := contended_run
  exact ⟨ops, S, hrun, hwaits, (mutex_waiters_served hrun 5).1 (by simp [hwaits])⟩

end Weenix.Sched.Mutex
