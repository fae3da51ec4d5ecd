import Weenix.Lib.FifoLock
import Weenix.Lib.Run
import Weenix.Proofs.SchedStable

/-! Mutexes without cancellation. A thread inside `kmutex_lock` is on the queue of the
mutex until `kmutex_unlock` makes it the holder, and the queue hands the mutex over in
the order of the calls. -/

namespace Weenix.Sched

open Runs List State

variable {σ : Scope} {s s' : State} {q : Queue} {t x m p : ℕ} {c : Code} {l : List Code}

def point (s : State) (t : ℕ) : List Code :=
  if t = s.curthr then s.cpu.frames else (s.thr t).ktCtx.frames

/-- `t` sleeps in `kmutex_lock` or has been woken there but has not returned. -/
def InLock (s : State) (t m : ℕ) : Prop := ∃ ipl, (point s t).getLast? = some (.lockReturn m ipl)

def Code.IsLock : Code → Prop
  | .lockReturn _ _ => True
  | _ => False

/-- Without cancellation, a thread on a queue is in a state that fits the queue. -/
structure Orderly (s : State) : Prop where
  queued : Queued s
  fit : ∀ q t, t ∈ (s.queue q).tqList → Fit q (s.thr t).ktState
  live : ∀ t, (s.thr t).ktCancelled = false

/-- How mutexes, their queues and the stacks of the threads agree; `inside m` lists the
threads between a returned `kmutex_lock` and its `kmutex_unlock`. -/
structure Locks (s : State) (inside : ℕ → List ℕ) : Prop extends Orderly s where
  bottom : ∀ t, ∀ c ∈ (point s t).dropLast, ¬ c.IsLock
  waiting : ∀ m t, t ∈ (s.queue (.mutex m)).tqList → InLock s t m
  pending : ∀ m t, InLock s t m → t ∈ (s.queue (.mutex m)).tqList ∨ s.kmHolder m = some t
  inside : ∀ m t, s.kmHolder m = some t → (t ∈ inside m ↔ ¬ InLock s t m)

variable {inside : ℕ → List ℕ}

theorem Orderly.congr (h : Orderly s) (hthr : s'.thr = s.thr) (hqueue : s'.queue = s.queue) : Orderly s' := by
  refine ⟨h.queued.congr hthr hqueue, fun q t => ?_, fun t => ?_⟩
  · rw [hthr, hqueue]
    exact h.fit q t
  · rw [hthr]
    exact h.live t

theorem Does.orderly (h : Does σ s s') (ho : Orderly s) : Orderly s' := by
  have hq := h.queued ho.queued
  cases h with
  | other h => exact ho.congr h.thr h.queue
  | push c hc | delThread t => exact ⟨hq, ho.fit, ho.live⟩
  | link q t _ hw hf _ =>
    refine ⟨hq, fun r x hx => ?_, fun x => ?_⟩
    · rw [link_list] at hx
      rw [link_thr]
      split_ifs with hxt
      · subst hxt
        split_ifs at hx with hr
        · exact hr ▸ hf
        · exact absurd hx (ho.queued.not_mem hw r)
      · split_ifs at hx with hr
        · exact hr ▸ ho.fit q x ((mem_cons.1 hx).resolve_left hxt)
        · exact ho.fit r x hx
    · rw [link_thr]
      split_ifs with hx
      · exact ho.live t
      · exact ho.live x
  | unlink q t _ hlast =>
    have hsame := sameThreads_unlink s q t
    refine ⟨hq, fun r x hx => ?_, fun x => (hsame.ktCancelled x).trans (ho.live x)⟩
    rw [hsame.ktState]
    rw [unlink_list] at hx
    split_ifs at hx with hr
    · exact hr ▸ ho.fit q x (mem_of_mem_dropLast hx)
    · exact ho.fit r x hx
  | state t st hw =>
    refine ⟨hq, fun r x hx => ?_, fun x => ?_⟩
    · have hxt : x ≠ t := fun he => ho.queued.not_mem hw r (he ▸ hx)
      rw [setState_thr, if_neg hxt]
      exact ho.fit r x hx
    rw [setState_thr]
    split_ifs with hx
    · exact ho.live t
    · exact ho.live x
  | reset q hqs =>
    refine ⟨hq, fun r x hx => ?_, ho.live⟩
    rw [reset_list] at hx
    split_ifs at hx with hr
    · cases hx
    · exact ho.fit r x hx
  | newThread t p _ hobj hcur hnq =>
    refine ⟨hq, fun r x hx => ?_, fun x => ?_⟩
    · have hxt : x ≠ t := fun he => hnq r (he ▸ hx)
      rw [newThread_thr, if_neg hxt]
      exact ho.fit r x hx
    rw [newThread_thr]
    split_ifs
    · rfl
    · exact ho.live x

theorem Effects.orderly (h : Effects σ s s') (ho : Orderly s) : Orderly s' :=
  h.invariant (fun _ _ ho hd => hd.orderly ho) ho

/-- A switch finds a thread, and it is not cancelled. -/
theorem Orderly.takes (h : Orderly s) : Takes s := by
  intro hne
  obtain ⟨t, ht⟩ : ∃ t, (s.queue .runq).tqList.getLast? = some t :=
    Option.ne_none_iff_exists'.1 (mt List.getLast?_eq_none_iff.1 hne)
  refine ⟨t, ?_, .inl (h.live t)⟩
  have hst := h.fit .runq t (mem_of_getLast? ht)
  rw [Fit, if_pos rfl] at hst
  rw [nextThread_unlink ht, if_neg (by simp [hst])]

theorem Orderly.schedSwitch {b : Bool} (h : Orderly s) (hs : schedSwitch s = .ok (b, s')) :
    (s.queue .runq).tqList = [] ∧ s' = { s with ipl := IPL_LOW }.push (.intrWait s.ipl) ∨
      ∃ t ∈ (s.queue .runq).tqList, ∃ k, s' = switched s t k := by
  by_cases hne : (s.queue .runq).tqList = []
  · rw [schedSwitch_empty hne] at hs
    cases hs
    exact .inl ⟨hne, rfl⟩
  obtain ⟨t, hnext, -⟩ := h.takes hne
  obtain ⟨k, -, hsw⟩ := schedSwitch_taken h.queued hne hnext (h.live t)
  rw [hsw] at hs
  cases hs
  exact .inr ⟨t, nextThread_mem hnext, k, rfl⟩

/-! ### Stacks -/

theorem point_congr (hcur : s'.curthr = s.curthr) (hcpu : s'.cpu.frames = s.cpu.frames)
    (hctx : ∀ x, (s'.thr x).ktCtx = (s.thr x).ktCtx) : point s' = point s := by
  funext x
  rw [point, point, hcur, hcpu, hctx]

theorem inLock_congr (h : point s' = point s) (t m : ℕ) : InLock s' t m ↔ InLock s t m := by
  rw [InLock, InLock, h]

theorem point_cur (s : State) : point s s.curthr = s.cpu.frames := if_pos rfl

theorem point_push (s : State) (c : Code) (t : ℕ) :
    point (s.push c) t = if t = s.curthr then c :: point s t else point s t := by
  unfold point
  by_cases h : t = s.curthr
  · rw [if_pos h, if_pos h]
    exact if_pos h
  · rw [if_neg h, if_neg h]
    exact if_neg h

theorem point_pop (s : State) (t : ℕ) :
    point s.pop t = if t = s.curthr then (point s t).tail else point s t := by
  unfold point
  by_cases h : t = s.curthr
  · rw [if_pos h, if_pos h]
    exact if_pos h
  · rw [if_neg h, if_neg h]
    exact if_neg h

theorem point_sleep (s : State) (q : Queue) (st : KtState) (t : ℕ) :
    point (s.sleep q st) t = if t = s.curthr then .schedSwitch :: point s t else point s t := by
  have h : point ((s.setState s.curthr st).link q s.curthr) = point s := point_congr rfl rfl fun x =>
    Eq.trans (b := ((s.setState s.curthr st).thr x).ktCtx) (setThr_field (·.ktCtx) rfl x) (setThr_field (·.ktCtx) rfl x)
  rw [← h]
  exact point_push _ _ t

/-- Opening or closing a call other than `kmutex_lock` at the top of a stack. -/
theorem getLast_cons_lock {l : List Code} {ipl : ℕ} (hc : ¬ c.IsLock) :
    (c :: l).getLast? = some (.lockReturn m ipl) ↔ l.getLast? = some (.lockReturn m ipl) := by
  cases l with
  | nil =>
    refine ⟨fun h => ?_, fun h => by cases h⟩
    cases h
    exact absurd trivial hc
  | cons d l => rw [List.getLast?_cons_cons]

theorem inLock_push (hc : ¬ c.IsLock) (t m : ℕ) : InLock (s.push c) t m ↔ InLock s t m := by
  rw [InLock, InLock, point_push]
  split_ifs
  · exact exists_congr fun ipl => getLast_cons_lock hc
  · rfl

theorem bottom_push (hc : ¬ c.IsLock) (h : ∀ t, ∀ c ∈ (point s t).dropLast, ¬ c.IsLock) :
    ∀ t, ∀ d ∈ (point (s.push c) t).dropLast, ¬ d.IsLock := by
  intro t d hd
  rw [point_push] at hd
  split_ifs at hd
  · cases hp : point s t with
    | nil =>
      rw [hp] at hd
      cases hd
    | cons e l =>
      rw [hp, dropLast_cons_cons] at hd
      rcases mem_cons.1 hd with rfl | hd
      · exact hc
      · exact h t d (hp ▸ hd)
  · exact h t d hd

theorem inLock_pop (hf : s.cpu.frames = c :: l) (hc : ¬ c.IsLock) (t m : ℕ) :
    InLock s.pop t m ↔ InLock s t m := by
  rw [InLock, InLock, point_pop]
  split_ifs with ht
  · rw [ht, point_cur, hf, tail_cons]
    exact exists_congr fun ipl => (getLast_cons_lock hc).symm
  · rfl

theorem bottom_pop (h : ∀ t, ∀ c ∈ (point s t).dropLast, ¬ c.IsLock) :
    ∀ t, ∀ d ∈ (point s.pop t).dropLast, ¬ d.IsLock := by
  intro t d hd
  rw [point_pop] at hd
  split_ifs at hd
  · refine h t d ?_
    cases hp : point s t with
    | nil =>
      rw [hp] at hd
      exact hd
    | cons e l =>
      rw [hp, tail_cons] at hd
      cases l with
      | nil => cases hd
      | cons f l =>
        exact mem_cons_of_mem _ hd
  · exact h t d hd

/-! ### What does not concern mutexes -/

/-- Two states that agree on mutexes and on the threads inside `kmutex_lock`. -/
structure Quiet (s s' : State) : Prop where
  waitq : ∀ m, (s'.queue (.mutex m)).tqList = (s.queue (.mutex m)).tqList
  kmHolder : s'.kmHolder = s.kmHolder

theorem Locks.quiet (h : Locks s inside) (ho : Orderly s') (hq : Quiet s s')
    (hbot : ∀ t, ∀ c ∈ (point s' t).dropLast, ¬ c.IsLock)
    (hin : ∀ t m, InLock s' t m ↔ InLock s t m) : Locks s' inside := by
  refine ⟨ho, hbot, fun m t ht => ?_, fun m t ht => ?_, fun m t hm => ?_⟩
  · rw [hq.waitq] at ht
    exact (hin t m).2 (h.waiting m t ht)
  · rw [hq.waitq, hq.kmHolder]
    exact h.pending m t ((hin t m).1 ht)
  rw [hq.kmHolder] at hm
  rw [hin]
  exact h.inside m t hm

theorem Locks.samePoint (h : Locks s inside) (ho : Orderly s') (hq : Quiet s s')
    (hp : point s' = point s) : Locks s' inside :=
  h.quiet ho hq (hp ▸ h.bottom) (inLock_congr hp)

def elsewhere (holder : ℕ → Option ℕ) : Scope :=
  ⟨True, fun q => ∀ m, q ≠ .mutex m, fun c => c.Plain ∧ ¬ c.IsLock, fun t => ∀ m, holder m ≠ some t⟩

theorem elsewhere_ordinary (holder : ℕ → Option ℕ) : Ordinary (elsewhere holder) := by
  refine ⟨⟨?_, ?_, ?_, ?_⟩, ?_, ?_, ?_, ?_, ?_⟩ <;> simp [elsewhere, Code.Plain, Code.IsLock]

variable {holder : ℕ → Option ℕ}

theorem Does.quiet (h : Does (elsewhere holder) s s') : Quiet s s' := by
  cases h with
  | other h => exact ⟨fun m => by rw [h.queue], h.kmHolder⟩
  | link q t hq => exact ⟨fun m => by rw [link_list, if_neg (hq m).symm], rfl⟩
  | unlink q t hq => exact ⟨fun m => by rw [unlink_list, if_neg (hq m).symm], rfl⟩
  | reset q hq => exact ⟨fun m => by rw [reset_list, if_neg (hq m).symm], rfl⟩
  | _ => exact ⟨fun _ => rfl, rfl⟩

theorem Effects.quiet (h : Effects (elsewhere holder) s s') : Quiet s s' :=
  h.invariant (I := Quiet s)
    (fun _ _ hq hd => ⟨fun m => (hd.quiet.waitq m).trans (hq.waitq m), hd.quiet.kmHolder.trans hq.kmHolder⟩)
    ⟨fun _ => rfl, rfl⟩

theorem Does.locks (h : Does (elsewhere s.kmHolder) s s') (hl : Locks s inside) : Locks s' inside := by
  have ho := h.orderly hl.toOrderly
  have hq := h.quiet
  cases h with
  | other h => exact hl.samePoint ho hq (point_congr h.curthr (by rw [h.cpu]) fun x => by rw [h.thr])
  | push c hc => exact hl.quiet ho hq (bottom_push hc.2 hl.bottom) (inLock_push hc.2)
  | link q t | state t st => exact hl.samePoint ho hq (point_congr rfl rfl (setThr_field (·.ktCtx) rfl))
  | unlink q t => exact hl.samePoint ho hq (point_congr rfl rfl (sameThreads_unlink s q t).ktCtx)
  | reset q | delThread t => exact hl.samePoint ho hq (point_congr rfl rfl fun _ => rfl)
  | newThread t p hcr hobj hcur hnq =>
    have hpoint : ∀ x, x ≠ t → point (s.newThread t p) x = point s x := by
      intro x hx
      rw [point, point, newThread_thr, if_neg hx]
      rfl
    have hnew : point (s.newThread t p) t = [.start] := by
      rw [point, newThread_thr, if_pos rfl]
      exact if_neg hcur
    refine hl.quiet ho hq (fun x => ?_) fun x m => ?_
    · by_cases hx : x = t
      · rw [hx, hnew]
        exact fun c hc => by cases hc
      · rw [hpoint x hx]
        exact hl.bottom x
    by_cases hx : x = t
    · subst hx
      -- the old stack at this address is not in `kmutex_lock`: it neither waits nor holds
      refine iff_of_false ?_ fun hin => (hl.pending m x hin).elim (hnq _) (hcr m)
      rintro ⟨ipl, h⟩
      rw [hnew] at h
      cases h
    · rw [InLock, InLock, hpoint x hx]

theorem Effects.locks (h : Effects (elsewhere s.kmHolder) s s') (hl : Locks s inside) : Locks s' inside := by
  refine (h.invariant (I := fun x => x.kmHolder = s.kmHolder ∧ Locks x inside) ?_ ⟨rfl, hl⟩).2
  rintro x y ⟨hx, hlx⟩ hd
  rw [← hx] at hd
  exact ⟨hd.quiet.kmHolder.trans hx, hd.locks hlx⟩

/-! ### The switch -/

theorem Locks.pop (h : Locks s inside) (hf : s.cpu.frames = c :: l) (hc : ¬ c.IsLock) : Locks s.pop inside :=
  h.quiet (h.toOrderly.congr rfl rfl) ⟨fun _ => rfl, rfl⟩ (bottom_pop h.bottom) (inLock_pop hf hc)

/-- `context_switch` stores the stack in use where it belongs and goes on with another. -/
theorem point_contextSwitch (s : State) (t p ipl : ℕ) :
    point (contextSwitch { s with curthr := t, curproc := p, ipl := ipl } s.curthr t) = point s := by
  funext x
  have hctx : ((contextSwitch { s with curthr := t, curproc := p, ipl := ipl } s.curthr t).thr
      x).ktCtx.frames = point s x := by
    rw [contextSwitch_thr, point]
    split_ifs <;> rfl
  rw [← hctx]
  by_cases hx : x = t
  · subst hx
    exact if_pos rfl
  · exact if_neg hx

theorem Orderly.contextSwitch (h : Orderly s) (old new : ℕ) : Orderly (contextSwitch s old new) := by
  refine ⟨h.queued.contextSwitch old new, fun q x hx => ?_, fun x => ?_⟩
  · rw [(contextSwitch_same s old new x).2.1]
    exact h.fit q x hx
  · rw [(contextSwitch_same s old new x).2.2.2]
    exact h.live x

theorem Locks.contextSwitch (h : Locks s inside) (t p ipl : ℕ) :
    Locks (Sched.contextSwitch { s with curthr := t, curproc := p, ipl := ipl } s.curthr t) inside := by
  refine h.samePoint (Orderly.contextSwitch ?_ _ _) ⟨fun _ => rfl, rfl⟩ (point_contextSwitch s t p ipl)
  exact h.toOrderly.congr rfl rfl

theorem Locks.switched (h : Locks s inside) (t k : ℕ) : Locks (switched s t k) inside := by
  have htake : Effects (elsewhere s.kmHolder) s (s.takeRunq k) :=
    takeRunq_effects (fun _ => Queue.noConfusion) k s
  have hl := htake.locks h
  rw [Sched.switched, ← htake.curthr]
  exact hl.contextSwitch t _ _

theorem switched_quiet (s : State) (t k : ℕ) : Quiet s (switched s t k) :=
  have htake : Effects (elsewhere s.kmHolder) s (s.takeRunq k) :=
    takeRunq_effects (fun _ => Queue.noConfusion) k s
  ⟨htake.quiet.waitq, htake.quiet.kmHolder⟩

/-- One step of the innermost open call, unless `kmutex_lock` returns in it. -/
theorem Locks.cont {b : Bool} (h : Locks s inside) (hf : s.cpu.frames = c :: l)
    (hp : c.Own s.curthr) (hc : ¬ c.IsLock) (hs : exec s.pop c = .ok (b, s')) : Locks s' inside ∧ Quiet s s' := by
  have hpop := h.pop hf hc
  have hquiet : ∀ {x y : State}, Effects (elsewhere s.kmHolder) x y → x.kmHolder = s.kmHolder →
      Locks x inside → Quiet s x → Locks y inside ∧ Quiet s y := by
    intro x y heff hx hlx hqx
    rw [← hx] at heff
    exact ⟨heff.locks hlx, fun m => (heff.quiet.waitq m).trans (hqx.waitq m),
      heff.quiet.kmHolder.trans hqx.kmHolder⟩
  have hqpop : Quiet s s.pop := ⟨fun _ => rfl, rfl⟩
  by_cases hsw : c = .schedSwitch
  · subst hsw
    rcases hpop.toOrderly.schedSwitch hs with ⟨-, rfl⟩ | ⟨t, -, k, rfl⟩
    · have hipl : Effects (elsewhere s.kmHolder) s.pop { s.pop with ipl := IPL_LOW } := .rest rfl
      exact hquiet (hipl.tail (.push _ (.intrWait s.pop.ipl) ⟨trivial, id⟩)) rfl hpop hqpop
    · have hq := switched_quiet s.pop t k
      exact ⟨hpop.switched t k, hq.waitq, hq.kmHolder⟩
  · rcases hp.neutral hsw with hn | ⟨ipl, rfl⟩
    · obtain ⟨-, hacts⟩ := exec_acts (elsewhere_ordinary s.kmHolder) hn (.inl trivial) hs
      exact hquiet hacts.effects rfl hpop hqpop
    · cases hs
      exact ⟨hpop.contextSwitch s.curthr s.curproc ipl, fun _ => rfl, rfl⟩

end Weenix.Sched
