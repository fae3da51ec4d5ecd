import Weenix.Proofs.SchedQueue

/-! The running thread runs on its own stack, and every other thread has its own stack
saved in its context. This is what a switch relies on; it holds as long as no switch
takes a cancelled thread other than the one that is running. -/

namespace Weenix.Sched

open Exec Function List State

variable {σ : Scope} {s s' s₁ s₂ : State} {q r : Queue} {t x p : ℕ} {c : Code}

/-- All code but that which names the thread that called `sched_switch`. -/
def Code.Plain : Code → Prop
  | .switchTail _ _ | .contextSwitch _ _ => False
  | _ => True

/-- The code on the stack of `x`: it stores a context in `x` only. -/
def Code.Own (x : ℕ) : Code → Prop
  | .switchTail _ _ => False
  | .contextSwitch old _ => old = x
  | _ => True

theorem Code.Plain.own (h : c.Plain) (x : ℕ) : c.Own x := by
  cases c with
  | switchTail | contextSwitch => exact h.elim
  | _ => trivial

theorem Code.Own.neutral (h : c.Own x) (hs : c ≠ .schedSwitch) :
    c.Neutral ∨ ∃ ipl, c = .contextSwitch x ipl := by
  cases c with
  | schedSwitch => exact absurd rfl hs
  | switchTail => exact h.elim
  | contextSwitch old ipl =>
    obtain rfl : old = x := h
    exact .inr ⟨ipl, rfl⟩
  | _ => exact .inl trivial

structure Framed (s : State) : Prop where
  queued : Queued s
  stack : s.cpu.stack = s.curthr
  proc : s.curproc = (s.thr s.curthr).ktProc
  ctx : ∀ t, (s.thr t).ktCtx.stack = t
  own : ∀ c ∈ s.cpu.frames, c.Own s.curthr
  ownCtx : ∀ t, ∀ c ∈ (s.thr t).ktCtx.frames, c.Own t

def Switching (s : State) : Prop :=
  ∃ l, s.cpu.frames = .schedSwitch :: l ∨ ∃ ipl, s.cpu.frames = .intrWait ipl :: l

structure Stable (s : State) : Prop extends Framed s where
  cur : (s.thr s.curthr).ktWchan = none ∨ Switching s

theorem Framed.congr (h : Framed s) (hthr : s'.thr = s.thr) (hqueue : s'.queue = s.queue)
    (hcur : s'.curthr = s.curthr) (hproc : s'.curproc = s.curproc) (hstack : s'.cpu.stack = s.cpu.stack)
    (hown : ∀ c ∈ s'.cpu.frames, c.Own s.curthr) : Framed s' := by
  refine ⟨h.queued.congr hthr hqueue, ?_, ?_, fun t => ?_, hcur ▸ hown, fun t => ?_⟩
  · rw [hstack, hcur]
    exact h.stack
  · rw [hproc, hcur, hthr]
    exact h.proc
  · rw [hthr]
    exact h.ctx t
  · rw [hthr]
    exact h.ownCtx t

theorem Framed.push (h : Framed s) (hc : c.Own s.curthr) : Framed (s.push c) := by
  refine h.congr rfl rfl rfl rfl rfl fun x hx => ?_
  rcases mem_cons.1 hx with rfl | hx
  · exact hc
  · exact h.own x hx

theorem Framed.pop (h : Framed s) : Framed s.pop :=
  h.congr rfl rfl rfl rfl rfl fun x hx => h.own x (mem_of_mem_tail hx)

/-- Nothing but the queueing and the state of threads that exist changes. -/
theorem Framed.threads (h : Framed s) (hq : Queued s') (hcur : s'.curthr = s.curthr)
    (hproc : s'.curproc = s.curproc) (hcpu : s'.cpu = s.cpu)
    (hctx : ∀ x, (s'.thr x).ktCtx = (s.thr x).ktCtx) (hp : ∀ x, (s'.thr x).ktProc = (s.thr x).ktProc) :
    Framed s' := by
  refine ⟨hq, ?_, ?_, fun t => ?_, ?_, fun t => ?_⟩
  · rw [hcpu, hcur]
    exact h.stack
  · rw [hproc, hp, hcur]
    exact h.proc
  · rw [hctx]
    exact h.ctx t
  · rw [hcpu, hcur]
    exact h.own
  · rw [hctx]
    exact h.ownCtx t

theorem Does.framed (hσ : ∀ c, σ.code c → c.Plain) (h : Does σ s s') (hf : Framed s) : Framed s' := by
  have hq := h.queued hf.queued
  cases h with
  | other h => exact hf.congr h.thr h.queue h.curthr h.curproc (by rw [h.cpu]) (h.cpu ▸ hf.own)
  | push c hc => exact hf.push ((hσ c hc).own _)
  | link q t | state t st =>
    exact hf.threads hq rfl rfl rfl (setThr_field (·.ktCtx) rfl) (setThr_field (·.ktProc) rfl)
  | unlink q t =>
    exact hf.threads hq rfl rfl rfl (sameThreads_unlink s q t).ktCtx (sameThreads_unlink s q t).ktProc
  | reset q | delThread t => exact hf.threads hq rfl rfl rfl (fun _ => rfl) fun _ => rfl
  | newThread t p _ hobj hcur hnq =>
    refine ⟨hq, hf.stack, ?_, fun x => ?_, hf.own, fun x c hc => ?_⟩
    · change s.curproc = ((s.newThread t p).thr s.curthr).ktProc
      rw [newThread_thr, if_neg hcur.symm]
      exact hf.proc
    · rw [newThread_thr]
      split_ifs with hx
      · exact hx.symm
      · exact hf.ctx x
    rw [newThread_thr] at hc
    split_ifs at hc with hx
    · obtain rfl := mem_singleton.1 hc
      trivial
    · exact hf.ownCtx x c hc

theorem Effects.framed (hσ : ∀ c, σ.code c → c.Plain) (h : Effects σ s s') (hf : Framed s) : Framed s' :=
  h.invariant (fun _ _ hf hd => hd.framed hσ hf) hf

theorem Does.wchan (hself : ¬ σ.self) (h : Does σ s s') (hw : (s.thr s.curthr).ktWchan = none) :
    (s'.thr s'.curthr).ktWchan = none := by
  cases h with
  | other h =>
    rw [h.thr, h.curthr]
    exact hw
  | push => exact hw
  | link q t _ _ _ hcur =>
    have ht : s.curthr ≠ t := fun he => hself (hcur he.symm)
    change ((s.link q t).thr s.curthr).ktWchan = none
    rw [link_thr, if_neg ht]
    exact hw
  | unlink q t =>
    rw [unlink_thr]
    split_ifs
    · rfl
    · exact hw
  | state t st =>
    rwa [setState_wchan]
  | reset => exact hw
  | newThread t p _ _ hcur =>
    change ((s.newThread t p).thr s.curthr).ktWchan = none
    rw [newThread_thr, if_neg hcur.symm]
    exact hw
  | delThread => exact hw

theorem Effects.wchan (hself : ¬ σ.self) (h : Effects σ s s') (hw : (s.thr s.curthr).ktWchan = none) :
    (s'.thr s'.curthr).ktWchan = none :=
  h.invariant (I := fun s => (s.thr s.curthr).ktWchan = none) (fun _ _ hw hd => hd.wchan hself hw) hw

/-- A call by a thread that is on no queue. -/
theorem Acts.stable (hσ : ∀ c, σ.code c → c.Plain) (hself : ¬ σ.self) (h : Acts σ s s')
    (hf : Framed s) (hw : (s.thr s.curthr).ktWchan = none) : Stable s' := by
  have hσ' : ∀ c, ({ σ with self := True } : Scope).code c → c.Plain := hσ
  refine ⟨h.effects.framed hσ' hf, ?_⟩
  obtain ⟨s₁, heff, hends⟩ := h
  cases hends with
  | done => exact .inl (heff.wchan hself hw)
  | sleep => exact .inr ⟨_, .inl rfl⟩

theorem Framed.unqueued (h : Framed s) (hw : (s.thr s.curthr).ktWchan = none) (σ : Scope) : Unqueued σ s :=
  Or.inr (h.queued.not_mem hw)

/-! ### The switch -/

/-- A switch finds a thread, and a thread other than the running one is not cancelled. -/
def Takes (s : State) : Prop :=
  (s.queue .runq).tqList ≠ [] →
    ∃ t, nextThread s = some t ∧ ((s.thr t).ktCancelled = false ∨ t = s.curthr)

def switched (s : State) (t k : ℕ) : State :=
  contextSwitch { s.takeRunq k with curthr := t, curproc := (s.thr t).ktProc, ipl := s.ipl } s.curthr t

theorem schedSwitch_empty (h : (s.queue .runq).tqList = []) :
    schedSwitch s = .ok (false, { s with ipl := IPL_LOW }.push (.intrWait s.ipl)) := by
  exact if_pos h

theorem schedSwitch_pick (hs : ((s.queue .runq).tqList.length : ℤ) ≤ (s.queue .runq).tqSize)
    (hne : (s.queue .runq).tqList ≠ []) :
    schedSwitch s = (schedPick (s.queue .runq).tqList.length { s with ipl := IPL_HIGH }).map
      fun s' => switchTail s' s.curthr s.ipl := by
  have hsize : 0 < (s.queue .runq).tqSize := by
    have := length_pos_iff.2 hne
    omega
  rw [schedSwitch]
  rw [if_neg hne, if_pos hsize]
  cases schedPick (s.queue .runq).tqList.length { s with ipl := IPL_HIGH } <;> rfl

theorem schedPick_next (ht : nextThread s = some t) : ∃ k, ((s.takeRunq k).thr t).ktWchan = none ∧
    schedPick (s.queue .runq).tqList.length { s with ipl := IPL_HIGH } =
      .ok { s.takeRunq k with curthr := t, curproc := (s.thr t).ktProc, ipl := IPL_HIGH } := by
  obtain ⟨s', hs'⟩ := (schedPick_total _ (s := { s with ipl := IPL_HIGH }) rfl).2 t ht
  obtain ⟨t', k, h1, h2, rfl⟩ := schedPick_ok _ hs'
  obtain rfl : t' = t := Option.some.inj (h1.symm.trans ht)
  rw [takeRunq_comm (f := fun s => { s with ipl := IPL_HIGH }) (fun _ => rfl) fun _ _ => rfl] at h2 hs'
  exact ⟨k, h2, hs'⟩

section
variable (hs : Queued s) (hne : (s.queue .runq).tqList ≠ [])
include hs hne

/-- `sched_switch` with a thread to run that is not cancelled. -/
theorem schedSwitch_taken (ht : nextThread s = some t) (hc : (s.thr t).ktCancelled = false) :
    ∃ k, ((s.takeRunq k).thr t).ktWchan = none ∧ schedSwitch s = .ok (true, switched s t k) := by
  obtain ⟨k, hw, hpick⟩ := schedPick_next ht
  refine ⟨k, hw, ?_⟩
  have hcan : ((s.takeRunq k).thr t).ktCancelled = false :=
    ((sameThreads_takeRunq k s).ktCancelled t).trans hc
  rw [schedSwitch_pick hs.size hne, hpick, Except.map, switchTail, if_neg (by simp [hcan])]
  rfl

/-- `sched_switch` with a cancelled thread to run. -/
theorem schedSwitch_cancelled
    (ht : nextThread s = some t) (hc : (s.thr t).ktCancelled = true) :
    ∃ k, ((s.takeRunq k).thr t).ktWchan = none ∧ schedSwitch s = .ok (false,
      (({ s.takeRunq k with curthr := t, curproc := (s.thr t).ktProc, ipl := IPL_HIGH }.push
        (.contextSwitch s.curthr s.ipl)).push (.doExit 0))) := by
  obtain ⟨k, hw, hpick⟩ := schedPick_next ht
  refine ⟨k, hw, ?_⟩
  have hcan : ((s.takeRunq k).thr t).ktCancelled = true :=
    ((sameThreads_takeRunq k s).ktCancelled t).trans hc
  rw [schedSwitch_pick hs.size hne, hpick, Except.map, switchTail, if_pos hcan]

/-- `sched_switch` with only exited threads on the run queue. -/
theorem schedSwitch_none (ht : nextThread s = none) : schedSwitch s = .error .null := by
  rw [schedSwitch_pick hs.size hne, (schedPick_total _ (s := { s with ipl := IPL_HIGH }) rfl).1 ht]
  rfl

end

theorem contextSwitch_thr (s : State) (old new x : ℕ) : (contextSwitch s old new).thr x =
    if x = old then { s.thr old with ktCtx := s.cpu } else s.thr x :=
  setThr_thr s old x fun k => { k with ktCtx := s.cpu }

/-- `context_switch` changes nothing of a thread but its context. -/
theorem contextSwitch_same (s : State) (old new x : ℕ) :
    ((contextSwitch s old new).thr x).ktWchan = (s.thr x).ktWchan ∧
    ((contextSwitch s old new).thr x).ktState = (s.thr x).ktState ∧
    ((contextSwitch s old new).thr x).ktProc = (s.thr x).ktProc ∧
    ((contextSwitch s old new).thr x).ktCancelled = (s.thr x).ktCancelled := by
  rw [contextSwitch_thr]
  split_ifs with hx
  · rw [hx]
    exact ⟨rfl, rfl, rfl, rfl⟩
  · exact ⟨rfl, rfl, rfl, rfl⟩

theorem Queued.contextSwitch (h : Queued s) (old new : ℕ) : Queued (contextSwitch s old new) := by
  refine ⟨fun r x hx => ?_, h.nodup, h.size, fun x hx => ?_⟩
  · rw [(contextSwitch_same s old new x).1]
    exact h.mem r x hx
  rw [(contextSwitch_same s old new x).1] at hx
  rw [(contextSwitch_same s old new x).2.1]
  exact h.awake x hx

/-- `context_switch` to a thread that is on no queue keeps every thread on its own stack. -/
theorem Framed.contextSwitch (h : Framed s) (hw : (s.thr t).ktWchan = none) (l : ℕ) :
    Stable (contextSwitch { s with curthr := t, curproc := (s.thr t).ktProc, ipl := l } s.curthr t) := by
  generalize hs1 : { s with curthr := t, curproc := (s.thr t).ktProc, ipl := l } = s₁
  have hthr : s₁.thr = s.thr := by rw [← hs1]
  have hcpu : s₁.cpu = s.cpu := by rw [← hs1]
  have hcur : s₁.curthr = t := by rw [← hs1]
  have hproc : s₁.curproc = (s.thr t).ktProc := by rw [← hs1]
  have hq : Queued s₁ := h.queued.congr hthr (by rw [← hs1])
  have hsame := contextSwitch_same s₁ s.curthr t
  have hctx : ∀ x, ((Sched.contextSwitch s₁ s.curthr t).thr x).ktCtx.stack = x := by
    intro x
    rw [contextSwitch_thr]
    split_ifs with hx
    · rw [hx, hcpu]
      exact h.stack
    · rw [hthr]
      exact h.ctx x
  have hown : ∀ x, ∀ c ∈ ((Sched.contextSwitch s₁ s.curthr t).thr x).ktCtx.frames, c.Own x := by
    intro x
    rw [contextSwitch_thr]
    split_ifs with hx
    · rw [hx, hcpu]
      exact h.own
    · rw [hthr]
      exact h.ownCtx x
  refine ⟨⟨hq.contextSwitch _ _, ?_, ?_, hctx, hcur ▸ hown t, hown⟩, .inl ?_⟩
  · exact (hctx t).trans hcur.symm
  · change s₁.curproc = ((Sched.contextSwitch s₁ s.curthr t).thr s₁.curthr).ktProc
    rw [(hsame _).2.2.1, hproc, hcur, hthr]
  change ((Sched.contextSwitch s₁ s.curthr t).thr s₁.curthr).ktWchan = none
  rw [(hsame _).1, hcur, hthr]
  exact hw

theorem takeRunq_handler (k : ℕ) (s : State) : Effects (handler True) s (s.takeRunq k) :=
  takeRunq_effects (fun _ => Queue.noConfusion) k s

theorem takeRunq_curthr (k : ℕ) (s : State) : (s.takeRunq k).curthr = s.curthr :=
  (takeRunq_handler k s).curthr

theorem Framed.takeRunq (h : Framed s) (k : ℕ) : Framed (s.takeRunq k) :=
  (takeRunq_handler k s).framed (fun _ (hc : False) => hc.elim) h

/-- A switch keeps every thread on its own stack. -/
theorem Framed.switched {k : ℕ} (h : Framed s) (hw : ((s.takeRunq k).thr t).ktWchan = none) :
    Stable (switched s t k) := by
  have hstable := (h.takeRunq k).contextSwitch hw s.ipl
  rwa [takeRunq_curthr, (sameThreads_takeRunq k s).ktProc] at hstable

/-! ### Steps -/

theorem Stable.congr (h : Stable s) (hthr : s'.thr = s.thr) (hqueue : s'.queue = s.queue)
    (hcur : s'.curthr = s.curthr) (hproc : s'.curproc = s.curproc) (hcpu : s'.cpu = s.cpu) : Stable s' := by
  refine ⟨h.toFramed.congr hthr hqueue hcur hproc (by rw [hcpu]) (hcpu ▸ h.own), ?_⟩
  rw [hthr, hcur, Switching, hcpu]
  exact h.cur

/-- A thread that is not in `sched_switch` is on no queue. -/
theorem Stable.wchan (h : Stable s) (hn : ¬ Switching s) : (s.thr s.curthr).ktWchan = none :=
  h.cur.resolve_right hn

theorem not_switching_nil (hf : s.cpu.frames = []) : ¬ Switching s := by
  rintro ⟨l, hl | ⟨ipl, hl⟩⟩
  · rw [hf] at hl
    cases hl
  · rw [hf] at hl
    cases hl

theorem not_switching_cons {l : List Code} (hf : s.cpu.frames = c :: l) (hc : c ≠ .schedSwitch)
    (hi : ∀ ipl, c ≠ .intrWait ipl) : ¬ Switching s := by
  rintro ⟨l', hl | ⟨ipl, hl⟩⟩
  · rw [hf] at hl
    exact hc (List.cons.inj hl).1
  · rw [hf] at hl
    exact hi ipl (List.cons.inj hl).1

theorem Code.Neutral.ne (hc : c.Neutral) : c ≠ .schedSwitch := by
  rintro rfl
  exact hc

section
variable (o : Ordinary σ) (hσ : ∀ c, σ.code c → c.Plain) (hself : ¬ σ.self)
include o hσ hself

theorem Stable.neutral_call {c : Call} (h : Stable s) (hen : Enabled s (.call c)) (hc : c.Neutral)
    (hcr : ∀ t p, c = .thread t p → σ.create t) (hs : call s c = .ok s') : Stable s' := by
  have hw := h.wchan (not_switching_nil hen.1)
  exact (call_acts o hc hen hcr hw (h.unqueued hw σ) hs).stable hσ hself h.toFramed hw

theorem Stable.neutral_exec {l : List Code} {b : Bool} (h : Stable s) (hf : s.cpu.frames = c :: l)
    (hc : c.Neutral) (hi : ∀ ipl, c ≠ .intrWait ipl) (hs : exec s.pop c = .ok (b, s')) : Stable s' := by
  have hw := h.wchan (not_switching_cons hf hc.ne hi)
  exact (exec_acts o hc (h.toFramed.pop.unqueued hw σ) hs).2.stable hσ hself h.toFramed.pop hw

end

theorem handler_effects {self : Prop} {ws : List Wake} (h : interrupt s ws = .ok s')
    (hn : Unqueued (handler self) s) : Effects (handler self) s s' :=
  (wakes_effects fun _ => Queue.noConfusion).interrupt (fun _ _ => Queue.noConfusion) ws h hn

theorem handler_framed {self : Prop} (h : Effects (handler self) s s') (hf : Framed s) : Framed s' :=
  h.framed (fun _ (hc : False) => hc.elim) hf

/-- An interrupt ends the wait of a halted processor. -/
theorem step_intr {ws : List Wake} (hen : Enabled s (.intr ws)) (hs : step s (.intr ws) = .ok s') :
    (∃ s₁ ipl l, s.cpu.frames = .intrWait ipl :: l ∧ interrupt s ws = .ok s₁ ∧
      Effects (handler True) s s₁ ∧ s' = { s₁.pop with ipl := ipl }.push .schedSwitch) ∨
    (s.cpu.frames = [] ∧ interrupt s ws = .ok s') := by
  obtain ⟨s₁, h1, h2⟩ := ok_of_bind hs
  have heff : Effects (handler True) s s₁ := handler_effects h1 (.inl trivial)
  have hcpu := heff.cpu fun _ => id
  rcases hen with ⟨ipl, l, hf⟩ | ⟨hf, -⟩
  · rw [hcpu, hf] at h2
    cases h2
    exact .inl ⟨s₁, ipl, l, hf, h1, heff, rfl⟩
  rw [hcpu, hf] at h2
  cases h2
  exact .inr ⟨hf, h1⟩

theorem Stable.intr {ws : List Wake} (h : Stable s) (hen : Enabled s (.intr ws))
    (hs : step s (.intr ws) = .ok s') : Stable s' := by
  rcases step_intr hen hs with ⟨s₁, ipl, l, hf, -, heff, rfl⟩ | ⟨hf, h1⟩
  · refine ⟨Framed.push ?_ trivial, .inr ⟨_, .inl rfl⟩⟩
    have hfr := handler_framed heff h.toFramed
    exact hfr.pop.congr rfl rfl rfl rfl rfl hfr.pop.own
  have hw := h.wchan (not_switching_nil hf)
  have heff : Effects (handler False) s s' := handler_effects h1 (h.unqueued hw _)
  exact ⟨handler_framed heff h.toFramed, .inl (heff.wchan id hw)⟩

/-- A switch that takes the running thread itself, which is cancelled. -/
theorem Framed.endSelf {k : ℕ} (h : Framed s) (hw : ((s.takeRunq k).thr s.curthr).ktWchan = none) :
    Stable (({ s.takeRunq k with curthr := s.curthr, curproc := (s.thr s.curthr).ktProc, ipl := IPL_HIGH
      }.push (.contextSwitch s.curthr s.ipl)).push (.doExit 0)) := by
  have hf := h.takeRunq k
  have hproc : (s.thr s.curthr).ktProc = (s.takeRunq k).curproc := by
    rw [hf.proc, takeRunq_curthr, (sameThreads_takeRunq k s).ktProc]
  refine ⟨Framed.push (Framed.push ?_ rfl) trivial, .inl hw⟩
  exact hf.congr rfl rfl (takeRunq_curthr k s).symm hproc rfl hf.own

/-- One step of the innermost open call, as long as it does not take another thread that is
cancelled. -/
theorem Stable.cont (o : Ordinary σ) (hσ : ∀ c, σ.code c → c.Plain) (hself : ¬ σ.self)
    {l : List Code} {b : Bool} (h : Stable s) (hf : s.cpu.frames = c :: l)
    (hi : ∀ ipl, c ≠ .intrWait ipl) (ht : c = .schedSwitch → Takes s)
    (hs : exec s.pop c = .ok (b, s')) : Stable s' := by
  have hpop := h.toFramed.pop
  by_cases hc : c = .schedSwitch
  · subst hc
    by_cases hne : (s.queue .runq).tqList = []
    · rw [exec, schedSwitch_empty (s := s.pop) hne] at hs
      cases hs
      refine ⟨Framed.push ?_ trivial, .inr ⟨_, .inr ⟨_, rfl⟩⟩⟩
      exact hpop.congr rfl rfl rfl rfl rfl hpop.own
    obtain ⟨t, hnext, hcan⟩ := ht rfl hne
    cases hcan' : (s.thr t).ktCancelled with
    | false =>
      obtain ⟨k, hw, hsw⟩ := schedSwitch_taken (s := s.pop) hpop.queued hne hnext hcan'
      rw [exec, hsw] at hs
      cases hs
      exact hpop.switched hw
    | true =>
      obtain rfl : t = s.curthr := hcan.resolve_left (by simp [hcan'])
      obtain ⟨k, hw, hsw⟩ := schedSwitch_cancelled (s := s.pop) hpop.queued hne hnext hcan'
      rw [exec, hsw] at hs
      cases hs
      exact hpop.endSelf hw
  · rcases (h.own c (hf ▸ mem_cons_self)).neutral hc with hn | ⟨ipl, rfl⟩
    · exact h.neutral_exec o hσ hself hf hn hi hs
    cases hs
    have hw := h.wchan (not_switching_cons hf Code.noConfusion hi)
    have hstable := hpop.contextSwitch (t := s.curthr) hw ipl
    rwa [show (s.pop.thr s.curthr).ktProc = s.pop.curproc from h.proc.symm] at hstable

/-! ### Mutexes -/

/-- How `kmutex_lock` goes: with a free mutex it returns at once, else the caller sleeps. -/
theorem kmutexLock_total {m : ℕ} (hcur : s.kmHolder m ≠ some s.curthr)
    (hw : (s.thr s.curthr).ktWchan = none) : ∃ s', kmutexLock s m = .ok s' := by
  unfold kmutexLock
  rw [if_neg hcur]
  split_ifs with hfree
  · exact ⟨_, rfl⟩
  refine ⟨({ s with ipl := IPL_HIGH }.push (.lockReturn m s.ipl)).sleep (.mutex m) .sleep, ?_⟩
  rw [schedSleepOn, ktqueueEnqueue, if_neg]
  · rfl
  rw [setState_wchan]
  exact not_not.2 hw

/-- How `kmutex_unlock` goes: the thread that has waited longest becomes the holder. -/
theorem kmutexUnlock_total {m : ℕ} (hq : Queued s) (hcur : s.kmHolder m = some s.curthr)
    (hw : (s.thr s.curthr).ktWchan = none)
    (hfit : ∀ t, t ∈ (s.queue (.mutex m)).tqList → Fit (.mutex m) (s.thr t).ktState) :
    ∃ s', kmutexUnlock s m = .ok s' := by
  unfold kmutexUnlock
  rw [if_neg (not_not.2 hcur)]
  cases hl : (s.queue (.mutex m)).tqList.getLast? with
  | none =>
    refine ⟨{ s with kmHolder := update s.kmHolder m none }, ?_⟩
    rw [schedWakeupOn, ktqueueDequeue, hl]
    change (if update s.kmHolder m none m = some s.curthr then _ else _) = _
    rw [update_self, if_neg (by simp)]
    rfl
  | some t =>
    have hne : t ≠ s.curthr := fun ht => hq.not_mem hw _ (ht ▸ mem_of_getLast? hl)
    have hst := hfit t (mem_of_getLast? hl)
    rw [Fit, if_neg (by simp)] at hst
    refine ⟨{ (((s.unlink (.mutex m) t).setState t .run).link .runq t) with
          kmHolder := update s.kmHolder m (some t) }, ?_⟩
    have hwake : schedWakeupOn { s with ipl := IPL_HIGH } (.mutex m) =
        .ok (some t, ((({ s with ipl := IPL_HIGH }.unlink (.mutex m) t).setState t .run).link .runq t)) := by
      have hd : ktqueueDequeue { s with ipl := IPL_HIGH } (.mutex m) =
          some (t, { s with ipl := IPL_HIGH }.unlink (.mutex m) t) := by
        rw [ktqueueDequeue, hl]
        rfl
      rw [schedWakeupOn, hd]
      dsimp only
      rw [(sameThreads_unlink _ _ t).ktState, if_neg (by tauto), ktqueueEnqueue, if_neg (by simp)]
      rfl
    rw [hwake]
    change (if update s.kmHolder m (some t) m = some s.curthr then _ else _) = _
    rw [update_self, if_neg (by simpa using hne)]
    rfl

/-- All changes but those of a switch to a cancelled thread. -/
def anyCall : Scope := ⟨False, fun _ => True, Code.Plain, fun _ => True⟩

theorem anyCall_ordinary : Ordinary anyCall := by
  refine ⟨⟨?_, ?_, ?_, ?_⟩, ?_, ?_, ?_, ?_, ?_⟩ <;> simp [anyCall, Code.Plain]

theorem Stable.lock {c : Call} {m : ℕ} (h : Stable s) (hn : ¬ Switching s) (hc : c.Locks m)
    (hs : call s c = .ok s') : Stable s' := by
  have hw := h.wchan hn
  obtain ⟨s₁, k, hacts, rfl⟩ := lock_acts anyCall_ordinary.toSleepy hw (h.unqueued hw _) trivial
    (fun _ => ⟨trivial, trivial⟩) hc hs
  exact (hacts.stable (fun _ => id) id h.toFramed hw).congr rfl rfl rfl rfl rfl

theorem stable_boot (p t : ℕ) (ints : ℕ → ℤ) : Stable (bootState p t ints) where
  queued := ⟨fun _ _ h => (by cases h), fun _ => nodup_nil, le_rfl, fun _ h => (by cases h)⟩
  stack := rfl
  proc := rfl
  ctx := fun _ => rfl
  own := fun _ h => by cases h
  ownCtx := fun _ c h => by
    obtain rfl := mem_singleton.1 h
    trivial
  cur := .inl rfl

end Weenix.Sched
